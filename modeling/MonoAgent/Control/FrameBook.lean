import Mathlib
import MonoAgent.Lib.Json
import MonoAgent.Lib.Machine
import MonoAgent.Session.Message

/-!
# The frame book

`FrameBook` keeps one route per Input of a control connection: whoever waits for the
final Output waits on the route until a writer has drained the page with that Output.
Routes, stages, claims and waits are objects with identities; an action is one call, one
callback of a writer, or what a coroutine does when it goes on after its wait.
-/

namespace MonoAgent.Control

open MonoAgent.Lib MonoAgent.Session

/-- An exception. -/
inductive Failure where
  /-- `FrameRouteReleased`. -/
  | released (message : String)
  | value (message : String)
  | type (message : String)
  | connection (message : String)
  /-- What the caller passes, a resolver raises or a writer fails with. -/
  | given (error : String)
  | cancelled
deriving DecidableEq

/-- `_RouteKey`. -/
structure RouteKey where
  sessionId : String
  inputId : String
deriving DecidableEq

/-- `_Route`; `waiters` and `claims` are identities. -/
structure Route where
  key : RouteKey
  connectionId : String
  expected : Option String := none
  resolved : Option String := none
  written : Option ℕ := none
  drained : Bool := false
  error : Option Failure := none
  waiters : List ℕ := []
  claims : List ℕ := []
  staged : Bool := false

/-- `FrameRouteStage`. -/
structure Stage where
  route : ℕ
  closed : Bool := false

/-- `FrameClaim`. -/
structure Claim where
  route : ℕ
  callRef : CallRef
  endingMessageId : Option String
  closed : Bool := false

/-- A coroutine at `await asyncio.shield(waiter)` in `_wait_route`, the claim when it got
there from `wait_claim`, and how the waiter was set. -/
structure Call where
  route : ℕ
  claim : Option ℕ
  outcome : Option (Option Failure) := none

/-- The book, and below its own fields the objects that were made: routes, stages and
claims are numbered. -/
structure Book where
  routes : Dict RouteKey ℕ := []
  stages : List ℕ := []
  claims : Dict (String × CallRef) ℕ := []
  closed : Option Failure := none
  routeCount : ℕ := 0
  stageCount : ℕ := 0
  claimCount : ℕ := 0
  route : ℕ → Route := fun _ => ⟨⟨"", ""⟩, "", none, none, none, false, none, [], [], false⟩
  stage : ℕ → Stage := fun _ => ⟨0, true⟩
  claim : ℕ → Claim := fun _ => ⟨0, ⟨"", 0⟩, none, true⟩
  call : ℕ → Option Call := fun _ => none
  /-- The done callbacks that were added, each with its route and writer. -/
  callbacks : List (ℕ × ℕ) := []
  /-- The writers that are done. -/
  writer : ℕ → Option (Except Failure Unit) := fun _ => none

namespace Book

variable (s : Book)

def modify (r : ℕ) (f : Route → Route) : Book :=
  { s with route := Function.update s.route r (f (s.route r)) }

/-- `for waiter in waiters: if not waiter.done(): ...`. -/
def resume (waiters : List ℕ) (outcome : Option Failure) : Book :=
  { s with
    call := fun w =>
      if w ∈ waiters then
        (s.call w).map fun c => if c.outcome = none then { c with outcome := some outcome } else c
      else s.call w }

/-! ## How routes end -/

/-- `_release_route`. -/
def releaseRoute (key : RouteKey) (exactRoute : Option ℕ) : Book :=
  match s.routes.get? key with
  | none => s
  | some r =>
      if exactRoute ≠ none ∧ exactRoute ≠ some r then s
      else
        let route := s.route r
        let error :=
          if route.error = none ∧ route.drained = false then
            some (.released "frame route 已结束但没有最终 Output")
          else route.error
        ({ s with routes := s.routes.pop key }.resume route.waiters
            (some (error.getD (.released "frame route 已释放")))).modify r
          fun route => { route with error, waiters := [] }

/-- `_fail_route`. -/
def failRoute (key : RouteKey) (error : Failure) (exactRoute : Option ℕ) : Book :=
  match exactRoute.or (s.routes.get? key) with
  | none => s
  | some r =>
      ({ s with
          routes := if s.routes.get? key = some r then s.routes.pop key else s.routes
          stages := s.stages.filter fun st => (s.stage st).route ≠ r }.resume (s.route r).waiters
            (some error)).modify r
        fun route => { route with error := some error, waiters := [] }

/-- `_maybe_release`. -/
def maybeRelease (r : ℕ) : Book :=
  if (s.route r).staged ∨ (s.route r).drained = false ∨ (s.route r).claims ≠ [] then s
  else s.releaseRoute (s.route r).key (some r)

/-- `_frame_done`. -/
def frameDone (r : ℕ) (result : Except Failure Unit) : Book :=
  match result with
  | .error error => s.failRoute (s.route r).key error (some r)
  | .ok () =>
      let s := s.modify r fun route => { route with written := none, drained := true }
      (s.resume (s.route r).waiters none).maybeRelease r

/-! ## Routes and stages -/

/-- `route_input`. -/
def routeInput (key : RouteKey) (connectionId : String) : Except Failure ℕ × Book :=
  match s.closed with
  | some error => (.error error, s)
  | none =>
      match s.routes.get? key with
      | some r => (.ok r, s)
      | none =>
          (.ok s.routeCount,
            { s with
              route := Function.update s.route s.routeCount { key, connectionId }
              routeCount := s.routeCount + 1
              routes := s.routes.set key s.routeCount })

/-- `stage_input`. -/
def stageInput (key : RouteKey) (connectionId : String) : Except Failure ℕ × Book :=
  match s.closed with
  | some error => (.error error, s)
  | none =>
      (.ok s.stageCount,
        { s with
          route := Function.update s.route s.routeCount { key, connectionId, staged := true }
          routeCount := s.routeCount + 1
          stage := Function.update s.stage s.stageCount { route := s.routeCount }
          stageCount := s.stageCount + 1
          stages := s.stages ++ [s.stageCount] })

/-- The stage is closed and no longer one of `_stages`. -/
def closeStage (st : ℕ) : Book :=
  { s with
    stage := Function.update s.stage st { s.stage st with closed := true }
    stages := s.stages.filter fun other => other ≠ st }

/-- The route that `_commit_stage` replaces fails. -/
def failReplaced (key : RouteKey) : Book :=
  match s.routes.get? key with
  | some old => s.failRoute (s.route old).key (.released "resume replaced old route") (some old)
  | none => s

/-- `FrameRouteStage.commit` with `_commit_stage`. -/
def commit (st : ℕ) : Except Failure ℕ × Book :=
  if (s.stage st).closed then (.error (.released "frame route stage 已结束"), s)
  else
    let r := (s.stage st).route
    let key := (s.route r).key
    let s := (s.closeStage st).failReplaced key
    let s := s.modify r fun route => { route with staged := false }
    (.ok r, { s with routes := s.routes.set key r }.maybeRelease r)

/-- `FrameRouteStage.abort` with `_abort_stage`. -/
def abort (st : ℕ) : Book :=
  if (s.stage st).closed then s
  else
    let r := (s.stage st).route
    (s.closeStage st).failRoute (s.route r).key (.released "resume route aborted") (some r)

/-! ## Pages -/

/-- `row.get(name)`. -/
def member (row : Doc) (name : String) : Option Doc :=
  match row with
  | .obj members => Dict.get? members name
  | _ => none

/-- The two identities of a row that is `_complete_output`. -/
def completeOutput (row : Doc) : Option (String × String) :=
  match member row "session_id", member row "id", member row "body" with
  | some (.str sessionId), some (.str id), some body =>
      match member body "kind", member body "finish", member body "parts" with
      | some (.str kind), some (.str finish), some (.arr _) =>
          if kind = "output" ∧ finish = "complete" then some (sessionId, id) else none
      | _, _, _ => none
  | _, _, _ => none

/-- The rows of a page. -/
def checkedRows (page : Doc) : Except Failure (List Doc) :=
  match member page "items" with
  | some (.arr rows) =>
      if rows.all fun row => row matches .obj _ then .ok rows
      else .error (.type "message page item 必须是对象")
  | _ => .error (.type "message page items 必须是列表")

/-- The ending of a route, which its claims learn. -/
def resolve (r : ℕ) (ending : String) : Book :=
  { s.modify r fun route => { route with expected := some ending, resolved := some ending } with
    claim := fun c =>
      if c ∈ (s.route r).claims then { s.claim c with endingMessageId := some ending } else s.claim c }

local instance lawfulEnding : LawfulBEq (String × String) := inferInstance

/-- The loop of `resolve_page`.  `resolver` are the answers of the resolvers. -/
def resolveRoutes (connectionId : String) (complete : List (String × String))
    (resolver : ℕ → Except Failure (Option String)) : List ℕ → Book → Except Failure (List ℕ) × Book
  | [], s => (.ok [], s)
  | r :: rest, s =>
      if (s.route r).connectionId ≠ connectionId then
        resolveRoutes connectionId complete resolver rest s
      else
        match resolver r with
        | .error error => (.error error, s)
        | .ok none => resolveRoutes connectionId complete resolver rest s
        | .ok (some ending) =>
            if ((s.route r).key.sessionId, ending) ∉ complete then
              resolveRoutes connectionId complete resolver rest s
            else if (s.route r).expected ≠ none ∧ (s.route r).expected ≠ some ending then
              (.error (.value "一次 Input 不能绑定多个最终 Output"), s)
            else
              let (tracked, s) :=
                resolveRoutes connectionId complete resolver rest (s.resolve r ending)
              (tracked.map (r :: ·), s)

/-- `resolve_page`.  `order` is the order in which the set of stages is read. -/
def resolvePage (connectionId : String) (page : Doc)
    (resolver : ℕ → Except Failure (Option String)) (order : List ℕ) :
    Except Failure (List ℕ) × Book :=
  match checkedRows page with
  | .error error => (.error error, s)
  | .ok rows =>
      resolveRoutes connectionId (rows.filterMap completeOutput) resolver
        (s.routes.map Prod.snd ++ order.map fun st => (s.stage st).route) s

/-- `attach_page`. -/
def attachPage (tracked : List ℕ) (written : ℕ) : Book :=
  tracked.foldl
    (fun s r =>
      if (s.route r).written ≠ none ∨ (s.route r).drained then s
      else
        { s.modify r fun route => { route with written := some written } with
          callbacks := s.callbacks ++ [(r, written)] })
    s

/-! ## Waits -/

/-- How far a coroutine comes. -/
inductive Progress where
  | suspended
  | returned
  | raised (error : Failure)

/-- `_wait_route` up to its wait. -/
def waitRoute (r : ℕ) (claim : Option ℕ) (w : ℕ) : Progress × Book :=
  match (s.route r).error with
  | some error => (.raised error, s)
  | none =>
      if (s.route r).drained then (.returned, s)
      else
        (.suspended,
          { s.modify r fun route => { route with waiters := route.waiters ++ [w] } with
            call := Function.update s.call w (some { route := r, claim }) })

/-- `wait_output`. -/
def waitOutput (r : ℕ) (messageId : String) (w : ℕ) : Progress × Book :=
  if (s.route r).expected ≠ none ∧ (s.route r).expected ≠ some messageId then
    (.raised (.value "一次 Input 不能绑定多个最终 Output"), s)
  else (s.modify r fun route => { route with expected := some messageId }).waitRoute r none w

/-- `wait_input`. -/
def waitInput (key : RouteKey) (ending : String) (w : ℕ) : Progress × Book :=
  match s.routes.get? key with
  | none => (.raised (.released "frame route 已释放"), s)
  | some r => s.waitOutput r ending w

/-- What `wait_claim` does after `_wait_route` returned, up to the head of its loop; a
drained route with an ending leaves the loop there. -/
def claimChecks (r c : ℕ) : Option Failure :=
  match (s.route r).error with
  | some error => some error
  | none =>
      if (s.claim c).endingMessageId = none ∧ (s.route r).drained then
        some (.released "frame claim 未解析到最终 Output")
      else none

/-- `wait_claim` from the head of its loop. -/
def claimLoop (r c w : ℕ) : Progress × Book :=
  if (s.claim c).endingMessageId = none ∨ (s.route r).drained = false then
    match s.waitRoute r (some c) w with
    | (.returned, s) => (((s.claimChecks r c).map Progress.raised).getD .returned, s)
    | (.raised error, s) => (.raised error, s)
    | (.suspended, s) => (.suspended, s)
  else ((((s.route r).error).map Progress.raised).getD .returned, s)

/-- `FrameClaim.wait_output`. -/
def waitClaim (c : ℕ) (w : ℕ) : Progress × Book :=
  if (s.claim c).closed then (.raised (.released "frame claim 已结束"), s)
  else s.claimLoop (s.claim c).route c w

/-- The `finally` of `_wait_route`. -/
def discard (w : ℕ) (call : Call) : Book :=
  { s.modify call.route fun route => { route with waiters := route.waiters.filter (· ≠ w) } with
    call := Function.update s.call w none }

/-- A coroutine whose waiter was set goes on. -/
def wake (w : ℕ) (call : Call) (outcome : Option Failure) : Progress × Book :=
  let s := s.discard w call
  match outcome with
  | some error => (.raised error, s)
  | none =>
      match (s.route call.route).error with
      | some error => (.raised error, s)
      | none =>
          let s := s.maybeRelease call.route
          match call.claim with
          | none => (.returned, s)
          | some c =>
              match s.claimChecks call.route c with
              | some error => (.raised error, s)
              | none => s.claimLoop call.route c w

/-! ## Claims and endings -/

/-- `arm_claim`. -/
def armClaim (key : RouteKey) (callRef : CallRef) : Except Failure ℕ × Book :=
  match s.routes.get? key with
  | none => (.error (.released "frame route 已释放"), s)
  | some r =>
      let fresh : Except Failure ℕ × Book :=
        (.ok s.claimCount,
          { s.modify r fun route => { route with claims := route.claims ++ [s.claimCount] } with
            claim := Function.update s.claim s.claimCount
              { route := r, callRef, endingMessageId := (s.route r).resolved }
            claimCount := s.claimCount + 1
            claims := s.claims.set (key.sessionId, callRef) s.claimCount })
      match s.claims.get? (key.sessionId, callRef) with
      | some existing => if (s.claim existing).closed then fresh else (.ok existing, s)
      | none => fresh

/-- `FrameClaim.consume` and `FrameClaim.abort` with `_release_claim`. -/
def endClaim (c : ℕ) : Book :=
  if (s.claim c).closed then s
  else
    let r := (s.claim c).route
    let key := ((s.route r).key.sessionId, (s.claim c).callRef)
    let s : Book :=
      { s.modify r fun route => { route with claims := route.claims.filter (· ≠ c) } with
        claim := Function.update s.claim c { s.claim c with closed := true }
        claims := if s.claims.get? key = some c then s.claims.pop key else s.claims }
    s.maybeRelease r

/-- `release_input`. -/
def releaseInput (key : RouteKey) : Book :=
  match s.routes.get? key with
  | none => s
  | some r => if (s.route r).claims = [] then s.releaseRoute key none else s

/-- `settle_input`. -/
def settleInput (key : RouteKey) (error : Option Failure) : Book :=
  match s.routes.get? key with
  | none => s
  | some r =>
      if (s.route r).claims ≠ [] then
        match error with
        | some error => s.failRoute key error (some r)
        | none => s
      else s.releaseRoute key none

/-- `fail_connection`. -/
def failConnection (connectionId : String) (error : Failure) : Book :=
  let t := s.routes.foldl
    (fun t e => if (t.route e.2).connectionId = connectionId then t.failRoute e.1 error none else t) s
  t.stages.foldl
    (fun u st => if (u.route (u.stage st).route).connectionId = connectionId then u.abort st else u) t

/-- `close`. -/
def close (error : Option Failure) : Book :=
  let closed := error.getD (.connection "control frame book closed")
  let s : Book := { s with closed := some closed }
  let t := s.routes.foldl (fun t e => t.failRoute e.1 closed none) s
  t.stages.foldl (fun u st => u.abort st) t

end Book

/-! ## Runs -/

/-- Calls name a route, a stage or a claim by its identity, and every wait has one of its
own. -/
inductive FrameAction where
  | routeInput (key : RouteKey) (connectionId : String)
  | stageInput (key : RouteKey) (connectionId : String)
  | commit (st : ℕ)
  | abort (st : ℕ)
  | resolvePage (connectionId : String) (page : Doc)
      (resolver : ℕ → Except Failure (Option String)) (order : List ℕ)
  | attachPage (tracked : List ℕ) (written : ℕ)
  /-- The writer is done. -/
  | written (f : ℕ) (result : Except Failure Unit)
  /-- The event loop calls a done callback. -/
  | frameDone (r f : ℕ)
  | waitOutput (r : ℕ) (messageId : String) (w : ℕ)
  | waitInput (key : RouteKey) (ending : String) (w : ℕ)
  | waitClaim (c w : ℕ)
  | wake (w : ℕ)
  /-- The task of a wait is cancelled. -/
  | cancel (w : ℕ)
  | armClaim (key : RouteKey) (callRef : CallRef)
  | endClaim (c : ℕ)
  | settleInput (key : RouteKey) (error : Option Failure)
  | releaseInput (key : RouteKey)
  | failConnection (connectionId : String) (error : Failure)
  | close (error : Option Failure)

/-- One action; `none` when what it names does not exist. -/
def Book.step (s : Book) : FrameAction → Option Book
  | .routeInput key connectionId => some (s.routeInput key connectionId).2
  | .stageInput key connectionId => some (s.stageInput key connectionId).2
  | .commit st => if st < s.stageCount then some (s.commit st).2 else none
  | .abort st => if st < s.stageCount then some (s.abort st) else none
  | .resolvePage connectionId page resolver order =>
      if order.Perm s.stages then some (s.resolvePage connectionId page resolver order).2 else none
  | .attachPage tracked written =>
      if ∀ r ∈ tracked, r < s.routeCount then some (s.attachPage tracked written) else none
  | .written f result =>
      if s.writer f = none then some { s with writer := Function.update s.writer f (some result) }
      else none
  | .frameDone r f =>
      if (r, f) ∈ s.callbacks then
        (s.writer f).map fun result =>
          { s with callbacks := s.callbacks.erase (r, f) }.frameDone r result
      else none
  | .waitOutput r messageId w =>
      if r < s.routeCount ∧ s.call w = none then some (s.waitOutput r messageId w).2 else none
  | .waitInput key ending w =>
      if s.call w = none then some (s.waitInput key ending w).2 else none
  | .waitClaim c w =>
      if c < s.claimCount ∧ s.call w = none then some (s.waitClaim c w).2 else none
  | .wake w =>
      (s.call w).bind fun call => call.outcome.map fun outcome => (s.wake w call outcome).2
  | .cancel w => (s.call w).map fun call => s.discard w call
  | .armClaim key callRef => some (s.armClaim key callRef).2
  | .endClaim c => if c < s.claimCount then some (s.endClaim c) else none
  | .settleInput key error => some (s.settleInput key error)
  | .releaseInput key => some (s.releaseInput key)
  | .failConnection connectionId error => some (s.failConnection connectionId error)
  | .close error => some (s.close error)

/-- The book, and the routes whose Inputs have been settled. -/
structure FrameState where
  book : Book := {}
  settled : List ℕ := []

/-- The routes of an Input in stages of the book. -/
def Book.stagedRoutes (s : Book) (key : RouteKey) : List ℕ :=
  (s.stages.map fun st => (s.stage st).route).filter fun r => (s.route r).key = key

/-- The routes of the Input that an action settles, as `active_input_ids` counts them. -/
def Book.settles (s : Book) : FrameAction → List ℕ
  | .settleInput key _ => (s.routes.get? key).toList ++ s.stagedRoutes key
  | _ => []

def frameMachine : Machine FrameState FrameAction where
  start s := s = {}
  next s a := (s.book.step a).map fun book => ⟨book, s.settled ++ s.book.settles a⟩

end MonoAgent.Control
