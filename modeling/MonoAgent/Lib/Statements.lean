import MonoAgent.Lib.Connection

/-!
# Constraints that every statement keeps

A constraint of the schema is checked by each statement that changes a table.  A
program that changes the database by such statements alone keeps it, committed or
not, however it ends and wherever it raises.  `Sql.Keeps` says so, and has one
rule for each way to build a program.
-/

namespace MonoAgent.Lib

namespace Connection

variable {δ : Type} {I : δ → Prop} {c : Connection δ}

/-- The constraint holds of what is committed and of what the open transaction
has made of it. -/
structure Meets (I : δ → Prop) (c : Connection δ) : Prop where
  durable : I c.durable
  current : I c.current

theorem Meets.opened (h : c.Meets I) {d : δ} (hd : I d) : (c.opened d).Meets I :=
  ⟨h.durable, hd⟩

theorem Meets.commit (h : c.Meets I) : c.commit.Meets I := ⟨h.current, h.current⟩

theorem Meets.rollback (h : c.Meets I) : c.rollback.Meets I := ⟨h.durable, h.durable⟩

end Connection

namespace Sql

open Connection

variable {ε δ α β : Type} {I : δ → Prop}

/-- A program after which the constraint holds, if it held before. -/
def Keeps (I : δ → Prop) (x : Sql ε δ α) : Prop :=
  ∀ c : Connection δ, c.Meets I → x.Post c (fun _ t => t.Meets I) fun _ t => t.Meets I

theorem Keeps.run {x : Sql ε δ α} (hx : Keeps I x) {c : Connection δ} (hc : c.Meets I) :
    (Exec.run x c).2.Meets I := by
  rcases (hx c hc).cases with ⟨a, t, heq, ht⟩ | ⟨e, t, heq, ht⟩
  · rw [heq]
    exact ht
  · rw [heq]
    exact ht

theorem keeps_pure (a : α) : Keeps I (pure a : Sql ε δ α) := fun _ hc => Exec.post_pure hc

theorem keeps_throw (e : ε) : Keeps I (throw e : Sql ε δ α) := fun _ hc => Exec.post_throw hc

theorem keeps_bind {x : Sql ε δ β} {f : β → Sql ε δ α} (hx : Keeps I x)
    (hf : ∀ b, Keeps I (f b)) : Keeps I (x >>= f) := by
  intro c hc
  refine Exec.post_bind ((hx c hc).mono (fun b t ht => ?_) fun _ _ ht => ht)
  exact hf b t ht

theorem keeps_map {x : Sql ε δ β} {f : β → α} (hx : Keeps I x) : Keeps I (f <$> x) :=
  fun c hc => Exec.post_map (hx c hc)

theorem keeps_liftExcept (x : Except ε α) : Keeps I (Exec.liftExcept x : Sql ε δ α) :=
  fun _ hc => Exec.post_liftExcept (fun _ _ => hc) fun _ _ => hc

theorem keeps_read (f : Connection δ → α) : Keeps I (Exec.read f : Sql ε δ α) :=
  fun _ hc => Exec.post_read hc

theorem keeps_query (f : δ → α) : Keeps I (query f : Sql ε δ α) :=
  fun _ hc => post_query hc

theorem keeps_check (p : Prop) [Decidable p] (e : ε) : Keeps I (Exec.check p e : Sql ε δ Unit) :=
  fun _ hc => Exec.post_check (fun _ => hc) fun _ => hc

/-- A statement keeps a constraint that it checks. -/
theorem keeps_execute {f : δ → Except ε δ} (hf : ∀ d d', I d → f d = .ok d' → I d') :
    Keeps I (execute f : Sql ε δ Unit) := by
  intro c hc
  refine post_execute (fun d hd => ?_) fun _ _ => ?_
  · exact hc.opened (hf _ _ hc.current hd)
  · exact hc.opened hc.current

theorem keeps_begin (e : ε) : Keeps I («begin» e : Sql ε δ Unit) := by
  intro c hc
  cases hw : c.working with
  | none => exact post_begin hw (hc.opened hc.durable)
  | some d => exact post_begin_busy (by simp [inTransaction, hw]) hc

theorem keeps_withConnection {x : Sql ε δ α} (hx : Keeps I x) : Keeps I (withConnection x) := by
  intro c hc
  exact post_withConnection ((hx c hc).mono (fun _ _ ht => ht.commit) fun _ _ ht => ht.rollback)

theorem keeps_forM {γ : Type} {l : List γ} {f : γ → Sql ε δ Unit} (hf : ∀ x, Keeps I (f x)) :
    Keeps I (l.forM f) := by
  intro c hc
  exact Exec.post_forM (I := fun _ t => t.Meets I) hc fun x _ t _ ht => hf x t ht

end Sql

end MonoAgent.Lib
