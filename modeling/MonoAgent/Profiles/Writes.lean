import MonoAgent.Profiles.Store

/-!
# Writes of the store

A receipt that was written stays (`Store.Keeps`).  `post_write` is the one rule for durable
writes: what it is used with holds whatever second the clock shows, and also when the process
dies before the write.
-/

namespace MonoAgent.Profiles

open MonoAgent.Lib MonoAgent.Lib.Exec

variable {p q : Store} {sourceRef : String} {kind : Kind} {c : Call}

/-! ## Stores -/

def Store.has (p : Store) (sourceRef : String) (kind : Kind) : Bool := (p.receipt? sourceRef kind).isSome

/-- Receipts stay as they are. -/
def Store.Keeps (p q : Store) : Prop := p.receipts <+: q.receipts

theorem Store.Keeps.refl (p : Store) : p.Keeps p := List.prefix_rfl

theorem Store.Keeps.receipt (h : p.Keeps q) {payload : Doc} (hp : p.receipt? sourceRef kind = some payload) :
    q.receipt? sourceRef kind = some payload := by
  obtain ⟨rest, hrest⟩ := h
  obtain ⟨r, hr, rfl⟩ := Option.map_eq_some_iff.mp hp
  rw [Store.receipt?, ← hrest, List.find?_append, hr]
  rfl

theorem Store.Keeps.has (h : p.Keeps q) (hp : p.has sourceRef kind = true) : q.has sourceRef kind = true := by
  obtain ⟨payload, hpayload⟩ := Option.isSome_iff_exists.mp hp
  rw [Store.has, h.receipt hpayload]
  rfl

theorem Store.mem_of_receipt {payload : Doc} (h : p.receipt? sourceRef kind = some payload) :
    ∃ r ∈ p.receipts, r.sourceRef = sourceRef ∧ r.kind = kind ∧ r.payload = payload := by
  obtain ⟨r, hr, rfl⟩ := Option.map_eq_some_iff.mp h
  have hmatch := List.find?_some hr
  simp only [decide_eq_true_eq] at hmatch
  exact ⟨r, List.mem_of_find?_eq_some hr, hmatch.1, hmatch.2, rfl⟩

/-! ## One more receipt -/

/-- The store with one more receipt. -/
def Store.insert (p : Store) (sourceRef : String) (kind : Kind) (payload : Doc) : Store :=
  { p with receipts := p.receipts ++ [⟨sourceRef, kind, payload, p.now⟩] }

theorem Store.keeps_insert (p : Store) (sourceRef : String) (kind : Kind) (payload : Doc) :
    p.Keeps (p.insert sourceRef kind payload) := List.prefix_append ..

theorem Store.has_insert {ref : String} {k : Kind} {payload : Doc} :
    (p.insert sourceRef kind payload).has ref k = true ↔ p.has ref k = true ∨ ref = sourceRef ∧ k = kind := by
  have heq : (p.insert sourceRef kind payload).receipt? ref k = (p.receipt? ref k).or
      (if sourceRef = ref ∧ kind = k then some payload else none) := by
    rw [Store.receipt?, Store.insert, List.find?_append, Store.receipt?]
    cases p.receipts.find? fun r => r.sourceRef = ref ∧ r.kind = k with
    | some r => rfl
    | none =>
        rw [Option.none_or, Option.map_none, Option.none_or]
        split
        · next h => simp [h]
        · next h => simp [h]
  rw [Store.has, heq, Store.has]
  cases p.receipt? ref k with
  | some _ => simp
  | none =>
      rw [Option.none_or]
      constructor
      · intro h
        split at h
        · next he => exact Or.inr ⟨he.1.symm, he.2.symm⟩
        · cases h
      · rintro (h | ⟨rfl, rfl⟩)
        · cases h
        · simp

theorem post_write {f : Store → Store} {Q : Unit → Call → Prop} {E : Failure → Call → Prop}
    (hq : ∀ now t, t.store = f { c.store with now := now } → Q () t) (he : E .crash c) : Post (write f) c Q E := by
  constructor
  · intro a t hr
    change (write f) c = _ at hr
    rw [write] at hr
    split at hr
    · cases hr
      exact hq _ _ rfl
    · cases hr
    · cases hr
      exact hq _ _ rfl
  · intro e t hr
    change (write f) c = _ at hr
    rw [write] at hr
    split at hr
    · cases hr
    · cases hr
      exact he
    · cases hr

end MonoAgent.Profiles
