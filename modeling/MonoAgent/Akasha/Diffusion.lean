import Mathlib
import MonoAgent.Lib.IndexedHeap
import MonoAgent.Lib.Machine
import MonoAgent.Lib.RestartWalk
import MonoAgent.Lib.Weights

/-!
# Residual push

`residual_push` spreads a seed over the transitions of a graph.  A push settles the
node with the largest residual: the restart part of its mass stays there, the rest goes
to the targets, and what a node does not spread goes back to the seed.  Numbers are
rational, so sums are exact; the transitions are those of one event.
-/

namespace MonoAgent.Akasha

open Lib

variable {n : ℕ}

/-- `graph.transitions(node, event)`: target, probability and edge of every transition,
and the unspread mass. -/
abbrev Transitions (n : ℕ) := Fin n → List (Fin n × ℚ × ℕ) × ℚ

/-- `parent_node`, `parent_edge` and `parent_mass` at one node. -/
structure Parent (n : ℕ) where
  node : Option (Fin n) := none
  edge : Option ℕ := none
  mass : ℚ := 0
deriving DecidableEq

/-- The arrays and counters of the loop. -/
structure PushState (n : ℕ) where
  residual : Fin n → ℚ
  reserve : Fin n → ℚ
  heap : IndexedHeap (Fin n)
  residualTotal : ℚ
  parents : Option (Fin n → Parent n)
  pushes : ℕ

structure DiffusionResult (n : ℕ) where
  reserve : Fin n → ℚ
  activeNodes : List (Fin n)
  pushes : ℕ
  residualL1 : ℚ
  parents : Option (Fin n → Parent n)

/-- The comparison of both sifts. -/
def better (residual : Fin n → ℚ) (a b : Fin n) : Bool :=
  residual a > residual b ∨ residual a = residual b ∧ a < b

namespace PushState

variable (s : PushState n)

/-- `math.fsum(residual[node] for node in heap.stable_nodes())`. -/
def heapTotal : ℚ :=
  ((s.heap.nodes.insertionSort (· ≤ ·)).map s.residual).sum

/-- `residual[target] += addition; update_heap(target); residual_total += addition`. -/
def add (target : Fin n) (addition : ℚ) : PushState n :=
  if addition ≠ 0 then
    let residual := Function.update s.residual target (s.residual target + addition)
    { s with
      residual
      heap := s.heap.update (better residual) target
      residualTotal := s.residualTotal + addition }
  else s

/-- The parent of `target` when the addition is the largest so far. -/
def record (node target : Fin n) (edge : ℕ) (addition : ℚ) : PushState n :=
  { s with
    parents := s.parents.map fun parents =>
      if addition ≠ 0 ∧ addition > (parents target).mass then
        Function.update parents target ⟨some node, some edge, addition⟩
      else parents }

/-- The body of the loop over `transitions`. -/
def settle (node : Fin n) (propagated : ℚ) (s : PushState n) (e : Fin n × ℚ × ℕ) : PushState n :=
  (s.add e.1 (propagated * e.2.1)).record node e.1 e.2.2 (propagated * e.2.1)

/-- The body of the loop over `seed`, for `propagated * unspread`. -/
def giveBack (unspread : ℚ) (s : PushState n) (e : Fin n × ℚ) : PushState n :=
  s.add e.1 (unspread * e.2)

/-- The body of the loop behind `heap.pop()`. -/
def push (g : Transitions n) (seed : List (Fin n × ℚ)) (restart : ℚ) (node : Fin n)
    (heap : IndexedHeap (Fin n)) : PushState n :=
  let value := s.residual node
  let propagated := (1 - restart) * value
  let s₁ : PushState n :=
    { s with
      residual := Function.update s.residual node 0
      reserve := Function.update s.reserve node (s.reserve node + restart * value)
      heap
      residualTotal := s.residualTotal - value }
  let s₂ := (g node).1.foldl (settle node propagated) s₁
  let s₃ := seed.foldl (giveBack (propagated * (g node).2)) s₂
  let s₄ : PushState n := { s₃ with pushes := s₃.pushes + 1 }
  if s₄.pushes % 4096 = 0 then { s₄ with residualTotal := s₄.heapTotal } else s₄

end PushState

/-- How a turn of the loop ends. -/
inductive Turn (n : ℕ) where
  | stop (s : PushState n)
  | raise (message : String)
  | again (node : Fin n) (s : PushState n)

/-- One turn of the loop. -/
def turn (g : Transitions n) (seed : List (Fin n × ℚ)) (restart tolerance : ℚ)
    (s : PushState n) : Turn n :=
  let s := if s.residualTotal ≤ tolerance then { s with residualTotal := s.heapTotal } else s
  if s.residualTotal ≤ tolerance then .stop s
  else
    match s.heap.pop (better s.residual) with
    | none => .raise "positive residual mass has no heap entry"
    | some (node, heap) => .again node (s.push g seed restart node heap)

/-- The loop, for as many turns as there is fuel. -/
def pushLoop (g : Transitions n) (seed : List (Fin n × ℚ)) (restart tolerance : ℚ) :
    ℕ → PushState n → Option (Except String (PushState n))
  | 0, _ => none
  | fuel + 1, s =>
      match turn g seed restart tolerance s with
      | .stop s => some (.ok s)
      | .raise message => some (.error message)
      | .again _ s => pushLoop g seed restart tolerance fuel s

/-- The state before the loop. -/
def initialState (seed : List (Fin n × ℚ)) (capturePaths : Bool) : PushState n :=
  let filled := seed.foldl
    (fun (p : (Fin n → ℚ) × IndexedHeap (Fin n)) e =>
      let residual := Function.update p.1 e.1 e.2
      (residual, p.2.update (better residual) e.1))
    (fun _ => 0, .empty)
  { residual := filled.1
    reserve := fun _ => 0
    heap := filled.2
    residualTotal := (seed.map Prod.snd).sum
    parents := if capturePaths then some fun _ => {} else none
    pushes := 0 }

def PushState.result (s : PushState n) : DiffusionResult n where
  reserve := s.reserve
  activeNodes := (List.finRange n).filter fun v => s.reserve v > 0
  pushes := s.pushes
  residualL1 := s.residualTotal
  parents := s.parents

/-- `residual_push`; `none` has run out of fuel, an error is an `ArithmeticError`. -/
def residualPush (fuel : ℕ) (g : Transitions n) (seed : List (Fin n × ℚ)) (restart tolerance : ℚ)
    (capturePaths : Bool) : Option (Except String (DiffusionResult n)) :=
  if seed = [] then some (.ok ⟨fun _ => 0, [], 0, 0, none⟩)
  else
    (pushLoop g seed restart tolerance fuel (initialState seed capturePaths)).map
      (Except.map PushState.result)

/-- A step settles the node that the loop takes. -/
def pushMachine (g : Transitions n) (seed : List (Fin n × ℚ)) (restart tolerance : ℚ)
    (capturePaths : Bool) : Machine (PushState n) (Fin n) where
  start s := s = initialState seed capturePaths
  next s v :=
    match turn g seed restart tolerance s with
    | .again node t => if node = v then some t else none
    | _ => none

/-- Probabilities are non-negative and sum with the unspread mass to one. -/
structure Stochastic (g : Transitions n) : Prop where
  nonneg : ∀ v, ∀ e ∈ (g v).1, 0 ≤ e.2.1
  unspread : ∀ v, 0 ≤ (g v).2
  total : ∀ v, ((g v).1.map fun e => e.2.1).sum + (g v).2 = 1

/-- Distinct nodes with positive values that sum to one. -/
structure IsSeed (seed : List (Fin n × ℚ)) : Prop where
  distinct : (seed.map Prod.fst).Nodup
  positive : ∀ e ∈ seed, 0 < e.2
  total : (seed.map Prod.snd).sum = 1

/-- Where the mass of a node goes that does not stop: along the transitions, and back to
the seed. -/
def kernel (g : Transitions n) (seed : List (Fin n × ℚ)) (v w : Fin n) : ℚ :=
  weightOf ((g v).1.map fun e => (e.1, e.2.1)) w + (g v).2 * weightOf seed w

end MonoAgent.Akasha
