import MonoAgent.Lib.Exec

/-!
# A database connection

One connection to a database with contents `δ`: what is committed, and what the
open transaction, if any, has made of it.  A statement that changes data opens a
transaction when none is open.  `withConnection` commits at a normal exit and
rolls back at a raise, whichever transaction is open then.  `begin` inside a
transaction raises.
-/

namespace MonoAgent.Lib

/-- A connection: the committed contents and those of the open transaction. -/
structure Connection (δ : Type) where
  durable : δ
  working : Option δ := none
deriving DecidableEq

namespace Connection

variable {ε δ α : Type}

/-- What a statement sees. -/
def current (c : Connection δ) : δ := c.working.getD c.durable

/-- `connection.in_transaction`. -/
def inTransaction (c : Connection δ) : Bool := c.working.isSome

/-- The connection with `d` in its open transaction. -/
def opened (c : Connection δ) (d : δ) : Connection δ := { c with working := some d }

def commit (c : Connection δ) : Connection δ := ⟨c.current, none⟩

def rollback (c : Connection δ) : Connection δ := ⟨c.durable, none⟩

@[simp] theorem current_opened (c : Connection δ) (d : δ) : (c.opened d).current = d := rfl

@[simp] theorem durable_opened (c : Connection δ) (d : δ) : (c.opened d).durable = c.durable := rfl

@[simp] theorem opened_opened (c : Connection δ) (d d' : δ) :
    (c.opened d).opened d' = c.opened d' := rfl

@[simp] theorem inTransaction_opened (c : Connection δ) (d : δ) :
    (c.opened d).inTransaction = true := rfl

@[simp] theorem commit_opened (c : Connection δ) (d : δ) : (c.opened d).commit = ⟨d, none⟩ := rfl

@[simp] theorem rollback_opened (c : Connection δ) (d : δ) :
    (c.opened d).rollback = ⟨c.durable, none⟩ := rfl

end Connection

/-- Programs over a connection. -/
abbrev Sql (ε δ α : Type) := Exec ε (Connection δ) α

namespace Sql

open Connection

variable {ε δ α : Type} {c : Connection δ} {Q : α → Connection δ → Prop}
  {E : ε → Connection δ → Prop}

/-- `BEGIN`, which raises `e` inside a transaction. -/
def «begin» (e : ε) : Sql ε δ Unit := fun c =>
  if c.inTransaction then (.error e, c) else (.ok (), c.opened c.durable)

/-- A query. -/
def query (f : δ → α) : Sql ε δ α := Exec.read fun c => f c.current

/-- A statement that changes data.  A transaction is open afterwards, also when
the statement is refused. -/
def execute (f : δ → Except ε δ) : Sql ε δ Unit := fun c =>
  match f c.current with
  | .ok d => (.ok (), c.opened d)
  | .error e => (.error e, c.opened c.current)

/-- `with connection:`. -/
def withConnection (x : Sql ε δ α) : Sql ε δ α := fun c =>
  match x.run c with
  | (.ok a, c) => (.ok a, c.commit)
  | (.error e, c) => (.error e, c.rollback)

/-! ## Rules -/

theorem run_withConnection (x : Sql ε δ α) (c : Connection δ) :
    Exec.run (withConnection x) c = match Exec.run x c with
      | (.ok a, c) => (.ok a, c.commit)
      | (.error e, c) => (.error e, c.rollback) := rfl

theorem post_begin {e : ε} {Q : Unit → Connection δ → Prop} (hc : c.working = none)
    (h : Q () (c.opened c.durable)) : («begin» e : Sql ε δ Unit).Post c Q E := by
  have hrun : Exec.run («begin» e : Sql ε δ Unit) c = (.ok (), c.opened c.durable) := by
    show (if c.inTransaction then _ else _) = _
    rw [if_neg (by simp [inTransaction, hc])]
  constructor
  · intro a t hr
    rw [hrun] at hr
    cases hr
    exact h
  · intro e' t hr
    rw [hrun] at hr
    cases hr

theorem post_begin_busy {e : ε} {Q : Unit → Connection δ → Prop} (hc : c.inTransaction = true)
    (h : E e c) : («begin» e : Sql ε δ Unit).Post c Q E := by
  have hrun : Exec.run («begin» e : Sql ε δ Unit) c = (.error e, c) := by
    show (if c.inTransaction then _ else _) = _
    rw [if_pos hc]
  constructor
  · intro a t hr
    rw [hrun] at hr
    cases hr
  · intro e' t hr
    rw [hrun] at hr
    cases hr
    exact h

theorem post_query {f : δ → α} (h : Q (f c.current) c) :
    (query f : Sql ε δ α).Post c Q E :=
  Exec.post_read h

theorem post_execute {f : δ → Except ε δ} {Q : Unit → Connection δ → Prop}
    (hq : ∀ d, f c.current = .ok d → Q () (c.opened d))
    (he : ∀ e, f c.current = .error e → E e (c.opened c.current)) :
    (execute f).Post c Q E := by
  have hrun : Exec.run (execute f) c = match f c.current with
      | .ok d => (.ok (), c.opened d)
      | .error e => (.error e, c.opened c.current) := rfl
  constructor
  · intro a t hr
    rw [hrun] at hr
    cases hf : f c.current with
    | ok d =>
        rw [hf] at hr
        cases hr
        exact hq d hf
    | error e =>
        rw [hf] at hr
        cases hr
  · intro e' t hr
    rw [hrun] at hr
    cases hf : f c.current with
    | ok d =>
        rw [hf] at hr
        cases hr
    | error e =>
        rw [hf] at hr
        cases hr
        exact he _ hf

/-- A block commits what it returns with and forgets what it raises with. -/
theorem post_withConnection {x : Sql ε δ α}
    (h : x.Post c (fun a t => Q a t.commit) (fun e t => E e t.rollback)) :
    (withConnection x).Post c Q E := by
  constructor
  · intro a t hr
    rw [run_withConnection] at hr
    cases hx : Exec.run x c with
    | mk r u =>
        rw [hx] at hr
        cases r with
        | ok b =>
            cases hr
            exact h.1 _ u hx
        | error e => cases hr
  · intro e t hr
    rw [run_withConnection] at hr
    cases hx : Exec.run x c with
    | mk r u =>
        rw [hx] at hr
        cases r with
        | ok b => cases hr
        | error e' =>
            cases hr
            exact h.2 _ _ hx

end Sql

end MonoAgent.Lib
