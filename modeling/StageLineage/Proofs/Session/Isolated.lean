import StageLineage.Proofs.Session.History
import StageLineage.Session.Stale
import StageLineage.Settings.Basic

/-! Sessions side by side in one store. Accepted ids are names, so the roots of two sessions are different
    directories that lie equally deep, and nothing lies below both. A session writes below its own root and reads
    below its own root, so what another session does cannot be seen. -/

namespace StageLineage

/-! ### Session roots -/

namespace Settings
variable {settings : Settings} {persona session persona' session' : String} {root root' : Path}

theorem isName_of_checkId {kind : IdKind} {id : String} (h : checkId kind id = .ok ()) : Path.IsName id := by
  refine Segment.isName_of_validate ?_
  rw [checkId] at h
  cases hvalid : Segment.validate id with
  | ok _ => rfl
  | error cause => simp [hvalid, Except.mapError] at h

/-- An accepted session lies two names below the root of all sessions. -/
theorem components_sessionRoot (h : settings.sessionRoot persona session = .ok root) :
    root.components = settings.sessionsRoot.components ++ [.name persona, .name session] := by
  obtain ⟨_, hpersona, h⟩ := bind_eq_ok_iff.mp h
  obtain ⟨_, hsession, h⟩ := bind_eq_ok_iff.mp h
  cases h
  rw [Path.components_child _ (isName_of_checkId hsession), Path.components_child _ (isName_of_checkId hpersona),
    List.append_assoc]
  rfl

/-- Nothing lies in two sessions. -/
theorem startsWith_sessionRoot (h : settings.sessionRoot persona session = .ok root)
    (h' : settings.sessionRoot persona' session' = .ok root') (hne : (persona, session) ≠ (persona', session'))
    {p : Path} (hp : p.startsWith root = true) : p.startsWith root' = false := by
  rw [← Bool.not_eq_true]
  intro hp'
  have hbelow := Path.startsWith_iff.mp hp
  have hbelow' := Path.startsWith_iff.mp hp'
  rw [components_sessionRoot h] at hbelow
  rw [components_sessionRoot h'] at hbelow'
  have hsame := List.prefix_of_prefix_length_le hbelow hbelow' (by simp)
  have hids := List.append_cancel_left (hsame.eq_of_length (by simp))
  simp only [List.cons.injEq, Path.Component.name.injEq, and_true] at hids
  exact hne (Prod.ext hids.1 hids.2)

end Settings

/-! ### Stores that agree below a root -/

namespace MemoryStore
variable {α β : Type} {a b : MemoryStore} {root : Path}

/-- The stores hold the same files below a root. -/
def SameBelow (root : Path) (a b : MemoryStore) : Prop :=
  ∀ p : Path, p.startsWith root = true → a.files.get? p = b.files.get? p

/-- An operation answers alike in two stores, and changes neither. -/
def Alike (a b : MemoryStore) (x : ExceptT SessionError (StateM MemoryStore) α) : Prop :=
  ∃ r, a.run x = (r, a) ∧ b.run x = (r, b)

theorem Alike.answer_eq {x : ExceptT SessionError (StateM MemoryStore) α} (h : Alike a b x) :
    b.answer x = a.answer x := by
  obtain ⟨r, ha, hb⟩ := h
  rw [answer, answer, ha, hb]

theorem alike_pure (v : α) : Alike a b (pure v) := ⟨.ok v, rfl, rfl⟩

theorem alike_throw (e : SessionError) : Alike a b (throw e : ExceptT SessionError (StateM MemoryStore) α) :=
  ⟨.error e, rfl, rfl⟩

theorem Alike.bind {x : ExceptT SessionError (StateM MemoryStore) α}
    {f : α → ExceptT SessionError (StateM MemoryStore) β} (hx : Alike a b x) (hf : ∀ v, Alike a b (f v)) :
    Alike a b (x >>= f) := by
  obtain ⟨r, ha, hb⟩ := hx
  cases r with
  | error e => exact ⟨.error e, by rw [run_bind, ha], by rw [run_bind, hb]⟩
  | ok v =>
    obtain ⟨r, ha', hb'⟩ := hf v
    exact ⟨r, by rw [run_bind, ha]; exact ha', by rw [run_bind, hb]; exact hb'⟩

theorem SameBelow.alike_read (h : SameBelow root a b) {p : Path} (hp : p.startsWith root = true) :
    Alike a b (Session.onStore (SessionStore.read p)) := by
  refine ⟨.ok (a.files.get? p), rfl, ?_⟩
  rw [h p hp]
  rfl

end MemoryStore

namespace Session
open MemoryStore
variable {s s' : Session} {a b store : MemoryStore}

/-! ### What a session reads -/

theorem lineageIn_eq (hp : s.persona.IsRead) (h : SameBelow s.root a b) : s.lineageIn b = s.lineageIn a := by
  have ha := realizes hp a
  refine (realizes hp b).eq hp.wellFormed ⟨ha.root_eq, ha.ids_eq, ha.dir_eq, fun id hid => ?_⟩
  rw [ha.present_eq id hid, fileExists, fileExists, SortedMap.contains, SortedMap.contains,
    h _ (startsWith_file hp a (hp.wellFormed.mem_order_iff.mp hid))]

theorem startsWith_of_artifactPath? (hp : s.persona.IsRead) {id : String} {p : Path}
    (h : (s.lineageIn store).artifactPath? id = some p) : p.startsWith s.root = true := by
  obtain ⟨q, hq, rfl⟩ := Option.map_eq_some_iff.mp h
  obtain ⟨r, hr, -⟩ := Option.map_eq_some_iff.mp hq
  have hid := mem_ids_of_find? hp hr
  rw [(realizes hp store).path?_eq hp.wellFormed hid] at hq
  cases hq
  exact startsWith_file hp store hid

section Reading
variable (hp : s.persona.IsRead) (h : SameBelow s.root a b)
include hp h

theorem alike_lineage_bind {α : Type} {f : Lineage → ExceptT SessionError (StateM MemoryStore) α}
    (hf : Alike a b (f (s.lineageIn a))) : Alike a b (s.lineage >>= f) := by
  obtain ⟨r, ha, hb⟩ := hf
  refine ⟨r, ?_, ?_⟩
  · rw [run_bind, (run_lineage hp a).1]
    exact ha
  · rw [run_bind, (run_lineage hp b).1, lineageIn_eq hp h]
    exact hb

theorem alike_readFrom (id : String) : Alike a b (readFrom (s.lineageIn a) id) := by
  rw [readFrom]
  cases hpath : (s.lineageIn a).artifactPath? id with
  | none => exact alike_pure none
  | some path =>
    refine (h.alike_read (startsWith_of_artifactPath? hp hpath)).bind fun bytes? => ?_
    cases bytes? with
    | none => exact alike_pure none
    | some bytes =>
      dsimp only
      cases Envelope.ofBytes? bytes with
      | none => exact alike_throw _
      | some e => exact alike_pure (some e)

theorem alike_scanStale (scan : StaleScan) (ids : List String) :
    Alike a b (scanStale s.persona.definition (s.lineageIn a) scan ids) := by
  induction ids generalizing scan with
  | nil => exact alike_pure scan
  | cons id ids ih =>
    refine (alike_readFrom hp h id).bind fun stored => ?_
    cases stored with
    | none => exact ih scan
    | some e => exact ih _

end Reading

/-- What a session answers in one store it answers in the other. -/
structure Unaffected (s : Session) (a b : MemoryStore) : Prop where
  /-- Each stage stands where it stood and is present if it was. -/
  lineage : b.answer s.lineage = a.answer s.lineage
  readEnvelope : ∀ id, b.answer (s.readEnvelope id) = a.answer (s.readEnvelope id)
  completed : b.answer s.completed = a.answer s.completed
  position : b.answer s.position = a.answer s.position
  stale : b.answer s.stale = a.answer s.stale

theorem unaffected_of_sameBelow (hp : s.persona.IsRead) (h : SameBelow s.root a b) : s.Unaffected a b := by
  refine ⟨?_, fun id => ?_, ?_, ?_, ?_⟩
  · have hlineage : Alike a b (s.lineage >>= pure) := alike_lineage_bind hp h (alike_pure _)
    rw [bind_pure] at hlineage
    exact hlineage.answer_eq
  · refine Alike.answer_eq ?_
    rw [readEnvelope]
    split
    · exact alike_lineage_bind hp h (alike_readFrom hp h id)
    · exact alike_throw _
  · exact Alike.answer_eq (x := s.completed) (alike_lineage_bind hp h (alike_pure _))
  · exact Alike.answer_eq (x := s.position) (alike_lineage_bind hp h (alike_pure _))
  · have hscan := alike_scanStale hp h ⟨[], []⟩ (s.lineageIn a).presentIds
    exact Alike.answer_eq (x := s.stale) (alike_lineage_bind hp h (hscan.bind fun scan => alike_pure scan.stale))

/-! ### What a session writes -/

theorem sameBelow_after (hp : s.persona.IsRead) {root : Path}
    (hapart : ∀ p : Path, p.startsWith s.root = true → p.startsWith root = false) (store : MemoryStore) (c : Call) :
    SameBelow root store (store.after (s.materialize c.stage c.content)) := by
  intro p hbelow
  rcases get?_files_after hp store c p with hsame | ⟨m, hm, hcompare, -⟩
  · exact hsame.symm
  · obtain ⟨payload, -, rfl⟩ := (materialized_of_answer hp hm).ofValue
    have hwritten : p.startsWith s.root = true := by
      rw [Path.startsWith_of_compare hcompare]
      exact startsWith_file hp store (materialized_of_answer hp hm).mem_ids
    rw [hapart p hwritten] at hbelow
    cases hbelow

theorem sameBelow_history (hp : s.persona.IsRead) {root : Path}
    (hapart : ∀ p : Path, p.startsWith s.root = true → p.startsWith root = false) (store : MemoryStore) (calls : List Call) :
    SameBelow root store (s.history store calls) := by
  induction calls using List.reverseRecOn with
  | nil => exact fun _ _ => rfl
  | append_singleton calls c ih =>
    rw [history_concat]
    exact fun p hbelow => (ih p hbelow).trans (sameBelow_after hp hapart _ c p hbelow)

/-! ### Two sessions -/

section Sessions
variable {settings : Settings} {persona session persona' session' : String}
  (hroot : settings.sessionRoot persona session = .ok s.root)
  (hroot' : settings.sessionRoot persona' session' = .ok s'.root)
  (hne : (persona, session) ≠ (persona', session')) (hp : s.persona.IsRead) (hp' : s'.persona.IsRead)
include hroot hroot' hne hp hp'

/-- Nothing lies below the roots of two sessions, and a call of one of them, whether it succeeds or not, leaves
    all as it was that the other one can see. -/
theorem unaffected_materialize : (∀ p : Path, ¬ (p.startsWith s.root = true ∧ p.startsWith s'.root = true)) ∧
    ∀ (store : MemoryStore) (stage : String) (content : Json),
      s'.Unaffected store (store.after (s.materialize stage content)) := by
  have hapart : ∀ p : Path, p.startsWith s.root = true → p.startsWith s'.root = false := fun p =>
    Settings.startsWith_sessionRoot hroot hroot' hne
  refine ⟨fun p ⟨hbelow, hbelow'⟩ => ?_, fun store stage content => ?_⟩
  · rw [hapart p hbelow] at hbelow'
    cases hbelow'
  · exact unaffected_of_sameBelow hp' (sameBelow_after hp hapart store ⟨stage, content⟩)

theorem unaffected_history (store : MemoryStore) (calls : List Call) : s'.Unaffected store (s.history store calls) :=
  unaffected_of_sameBelow hp' <|
    sameBelow_history hp (fun _ => Settings.startsWith_sessionRoot hroot hroot' hne) store calls

end Sessions

/-- Two sessions of one persona, of which the first one makes its optional stage appear. -/
theorem unaffected_forked : ∃ s s' : Session, s.persona.IsRead ∧ s.persona.definition = .forked ∧
    s'.persona.IsRead ∧ s'.persona.definition = .forked ∧ ({} : Settings).sessionRoot "forked" "a" = .ok s.root ∧
    ({} : Settings).sessionRoot "forked" "b" = .ok s'.root ∧
    s'.Unaffected (s.history .empty (forkedCalls.take 3))
      ((s.history .empty (forkedCalls.take 3)).after (s.materialize "o" (.bool true))) := by
  obtain ⟨p, hp, hd⟩ := Persona.exists_forked
  have hroot : ({} : Settings).sessionRoot "forked" "a" = .ok ⟨"./sessions/forked/a"⟩ := rfl
  have hroot' : ({} : Settings).sessionRoot "forked" "b" = .ok ⟨"./sessions/forked/b"⟩ := rfl
  refine ⟨⟨p, {}, ⟨"./sessions/forked/a"⟩⟩, ⟨p, {}, ⟨"./sessions/forked/b"⟩⟩, hp, hd, hp, hd, hroot, hroot', ?_⟩
  exact (unaffected_materialize hroot hroot' (by decide) hp hp).2 _ "o" (.bool true)

end Session
end StageLineage
