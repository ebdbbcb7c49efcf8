import MonoAgent.EventMail.Ledger

/-!
# What an alert call writes

A call that claims or closes alerts rewrites rows of `alert_projection`, and logs
what it did to the mail of each row: `Touches`.  The transitions of a row replay its
rewrite, so they are what a rebuild needs, as long as none of them is ignored.
-/

namespace MonoAgent.EventMail

open MonoAgent.Lib MonoAgent.Session

variable {m n l : Mail}

/-! ## The log -/

local instance lawfulId : LawfulBEq (String × MailAction × Detail) := inferInstance

/-- The log after some transitions: each is appended unless the same is there. -/
def logAll (log ts : List Transition) : List Transition :=
  ts.foldl (fun log t => if t.id ∈ log.map Transition.id then log else log ++ [t]) log

/-- The mail with some transitions more. -/
def Mail.log (m : Mail) (ts : List Transition) : Mail :=
  { m with transitions := logAll m.transitions ts }

/-- The log only grows, by some of the transitions. -/
theorem logAll_eq (log ts : List Transition) :
    ∃ us : List Transition, (∀ t ∈ us, t ∈ ts) ∧ logAll log ts = log ++ us := by
  induction ts generalizing log with
  | nil => exact ⟨[], by simp, by simp [logAll]⟩
  | cons t rest ih =>
      obtain ⟨us, hus, heq⟩ := ih (if t.id ∈ log.map Transition.id then log else log ++ [t])
      rw [show logAll log (t :: rest) = logAll _ rest from rfl, heq]
      split
      · exact ⟨us, fun u hu => List.mem_cons_of_mem _ (hus u hu), rfl⟩
      · refine ⟨t :: us, fun u hu => ?_, by rw [List.append_assoc, List.singleton_append]⟩
        rcases List.mem_cons.mp hu with rfl | hu
        · exact List.mem_cons_self ..
        · exact List.mem_cons_of_mem _ (hus u hu)

theorem appendTransition_log {id : String} {kind : MailKind} {action : MailAction} {detail : Detail}
    (h : m.appendTransition id kind action detail = .ok n) :
    n = m.log [⟨id, kind, action, detail⟩] := by
  obtain ⟨rfl, hold⟩ | ⟨hnew, _, rfl⟩ := appendTransition_ok h
  · simp only [Mail.log, logAll, List.foldl_cons, List.foldl_nil]
    rw [if_pos (show Transition.id _ ∈ _ from hold)]
  · simp only [Mail.log, logAll, List.foldl_cons, List.foldl_nil]
    rw [if_neg (show ¬ Transition.id _ ∈ _ from hnew)]

/-! ## Rows -/

/-- A change of the rows that keeps what names them. -/
def KeepsAlert (f : Alert → Alert) : Prop :=
  ∀ a, (f a).sourceId = a.sourceId ∧ (f a).eventId = a.eventId ∧ (f a).mailId = a.mailId

theorem keepsAlert_ite {p : Alert → Prop} [DecidablePred p] {f : Alert → Alert} (hf : KeepsAlert f) :
    KeepsAlert fun a => if p a then f a else a := by
  intro a
  dsimp only
  split
  · exact hf a
  · exact ⟨rfl, rfl, rfl⟩

/-- The alert waits, or a turn has it. -/
def Alert.Open (a : Alert) : Prop := a.status = .pending ∨ a.status = .selected

/-- Rows are rewritten by `f`, each with one transition in `ts` that replays it. -/
structure Touches (m : Mail) (f : Alert → Alert) (ts : List Transition) (n : Mail) : Prop where
  keeps : KeepsAlert f
  unique : AlertsUnique n.alerts
  once : (ts.map (·.mailId)).Nodup
  marks : ∀ t ∈ ts, t.kind = .alert ∧ t.action ≠ .projected ∧ ∃ a ∈ m.alerts, t.mailId = a.mailId ∧
    a.Open ∧ Mail.replayAlert a t = .ok (f a)
  others : ∀ a ∈ m.alerts, (∀ t ∈ ts, t.mailId ≠ a.mailId) → f a = a
  eq : n = { m with alerts := m.alerts.map f, transitions := logAll m.transitions ts }

theorem Touches.refl (h : AlertsUnique m.alerts) : Touches m id [] m where
  keeps _ := ⟨rfl, rfl, rfl⟩
  unique := h
  once := List.nodup_nil
  marks := by simp
  others _ _ _ := rfl
  eq := by simp [logAll]

/-! ## One row -/

/-- A row is rewritten, and one transition of its mail says how. -/
theorem touches_row (hu : AlertsUnique m.alerts) {row : Alert} (hrow : row ∈ m.alerts)
    {g : Alert → Alert} {action : MailAction} {detail : Detail}
    (ha : m.updateAlert row.sourceId row.eventId g = .ok l)
    (hn : l.appendTransition row.mailId .alert action detail = .ok n) (hg : KeepsAlert g)
    (hopen : row.Open) (hproj : action ≠ .projected)
    (hreplay : Mail.replayAlert row ⟨row.mailId, .alert, action, detail⟩ = .ok (g row)) :
    ∃ f, Touches m f [⟨row.mailId, .alert, action, detail⟩] n := by
  obtain ⟨hul, rfl⟩ := setAlerts_ok.mp ha
  have heq := appendTransition_log hn
  refine ⟨_, keepsAlert_ite hg, heq ▸ hul, List.nodup_singleton _, fun t ht => ?_, fun a ha hne => ?_, heq⟩
  · rw [List.mem_singleton.mp ht]
    refine ⟨rfl, hproj, row, hrow, rfl, hopen, ?_⟩
    rw [if_pos ⟨rfl, rfl⟩]
    exact hreplay
  · refine if_neg fun hsame => hne _ (List.mem_singleton.mpr rfl) ?_
    have hrow' : a = row := List.inj_on_of_nodup_map hu.1 ha hrow (Prod.ext hsame.1 hsame.2)
    exact hrow' ▸ rfl

/-! ## Expired alerts -/

/-- An alert whose time is over. -/
def Alert.expire (a : Alert) : Alert := { a with status := .expired, accepted := none }

theorem keepsAlert_expire : KeepsAlert Alert.expire := fun _ => ⟨rfl, rfl, rfl⟩

/-- A loop of appends leaves the log of all of them. -/
theorem foldlM_log {α : Type} {rows : List α} {f : α → Transition}
    (h : rows.foldlM (fun n row => n.appendTransition (f row).mailId (f row).kind (f row).action
      (f row).detail) m = .ok n) :
    n = m.log (rows.map f) := by
  induction rows generalizing m with
  | nil =>
      cases h
      rfl
  | cons row rest ih =>
      rw [List.foldlM_cons] at h
      obtain ⟨a, ha, h⟩ := Except.bind_eq_ok.mp h
      rw [ih h, appendTransition_log ha]
      rfl

theorem overdue_open {now : Instant} {a : Alert} (h : Mail.overdue now a = true) : a.Open := by
  rw [Mail.overdue, Bool.and_eq_true, decide_eq_true_eq] at h
  exact Or.inl h.1

/-- The transition closes its alert. -/
def Transition.Closes (t : Transition) : Prop :=
  t.action = .delivered ∨ t.action = .skipped ∨ t.action = .expired

theorem expireAlerts_touches {now : Instant} (hu : AlertsUnique m.alerts)
    (h : m.expireAlerts now = .ok n) : ∃ f ts, Touches m f ts n ∧ ∀ t ∈ ts, t.Closes := by
  obtain ⟨a, ha, h⟩ := Except.bind_eq_ok.mp h
  have heq := foldlM_log (f := fun row : Alert => ⟨row.mailId, .alert, .expired, .empty⟩) ha
  subst heq
  obtain ⟨hun, rfl⟩ := setAlerts_ok.mp h
  have hmem (x : Alert) : x ∈ ((m.alerts.filter (Mail.overdue now)).insertionSort fun a b =>
      a.sourceId < b.sourceId ∨ (a.sourceId = b.sourceId ∧ a.eventId ≤ b.eventId)) ↔
      x ∈ m.alerts ∧ Mail.overdue now x = true := by
    rw [(List.perm_insertionSort _ _).mem_iff, List.mem_filter]
  refine ⟨fun a => if Mail.overdue now a then a.expire else a, _,
    ⟨keepsAlert_ite keepsAlert_expire, hun, ?_, fun t ht => ?_, fun a ha hne => ?_, rfl⟩, fun t ht => ?_⟩
  · rw [List.map_map]
    refine ((List.perm_insertionSort _ _).map _).nodup_iff.mpr ?_
    exact hu.2.sublist (List.filter_sublist.map _)
  · obtain ⟨row, hrow, rfl⟩ := List.mem_map.mp ht
    obtain ⟨hrow, hover⟩ := (hmem row).mp hrow
    refine ⟨rfl, nofun, row, hrow, rfl, overdue_open hover, ?_⟩
    rw [if_pos hover]
    rfl
  · refine if_neg fun hover => hne _ (List.mem_map_of_mem ((hmem a).mpr ⟨ha, hover⟩)) rfl
  · obtain ⟨row, _, rfl⟩ := List.mem_map.mp ht
    exact Or.inr (Or.inr rfl)

/-! ## Claims -/

theorem mem_firstDue {rows : List (Alert × Envelope)} {row : Alert × Envelope}
    (h : Mail.firstDue rows = some row) : row ∈ rows := by
  induction rows generalizing row with
  | nil => cases h
  | cons x rest ih =>
      rw [Mail.firstDue] at h
      split at h
      · cases h
        exact List.mem_cons_self ..
      · next other hother =>
          cases h
          split
          · exact List.mem_cons_of_mem _ (ih hother)
          · exact List.mem_cons_self ..

theorem mem_alertRows {row : Alert × Envelope} (h : row ∈ m.alertRows) :
    row.1 ∈ m.alerts ∧ row.2 ∈ m.envelopes ∧ row.1.mailId = row.2.mailId := by
  obtain ⟨e, he, h⟩ := List.mem_flatMap.mp h
  obtain ⟨a, ha, rfl⟩ := List.mem_map.mp h
  obtain ⟨ha, hid⟩ := List.mem_filter.mp ha
  exact ⟨ha, he, by simpa using hid⟩

theorem chooseAlert_mem {turn : AcceptedTurn} {now : Instant} {ref : Option AlertRef}
    {row : Alert × Envelope} {view : Option AlertView}
    (h : m.chooseAlert turn now ref = .ok (some row, view)) : row ∈ m.alertRows := by
  unfold Mail.chooseAlert at h
  split at h
  · have hfirst := congrArg Prod.fst (Except.ok.inj h)
    exact (List.mem_filter.mp (mem_firstDue hfirst)).1
  · obtain ⟨_, _, h⟩ := Except.bind_eq_ok.mp h
    obtain ⟨_, _, h⟩ := Except.bind_eq_ok.mp h
    split at h
    · cases h
    · next a e hfind =>
        obtain ⟨_, _, h⟩ := Except.bind_eq_ok.mp h
        split at h
        · cases h
        · split at h
          · cases h
          · split at h
            · cases h
            · cases h
              exact List.mem_of_find?_eq_some hfind

/-- The ledger has a transition of this name. -/
def Mail.Has (m : Mail) (t : Transition) : Prop := t.id ∈ m.transitions.map Transition.id

/-- A claim rewrites the row with a transition that the turn is claimed to have, or nothing. -/
theorem claimAlert_touches (hu : AlertsUnique m.alerts) {a : Alert} {e : Envelope} {turn : AcceptedTurn}
    {view : Option AlertView} (ha : a ∈ m.alerts) (hturn : turn.check = .ok ())
    (h : m.claimAlert a e turn = .ok (view, n)) :
    ∃ f ts, Touches m f ts n ∧ ∀ t ∈ ts, t = ⟨a.mailId, .alert, .selected, .claimed turn⟩ := by
  rw [Mail.claimAlert] at h
  split at h
  · next hany =>
      obtain ⟨l, hl, h⟩ := Except.bind_eq_ok.mp h
      obtain ⟨k, hk, h⟩ := Except.bind_eq_ok.mp h
      cases h
      have hopen : a.Open := by
        obtain ⟨b, hb, hcond⟩ := List.any_eq_true.mp hany
        simp only [Bool.and_eq_true, decide_eq_true_eq] at hcond
        have hab : b = a := List.inj_on_of_nodup_map hu.2 hb ha hcond.1.2
        exact Or.inl (hab ▸ hcond.2)
      obtain ⟨f, hf⟩ := touches_row hu ha hl hk (fun _ => ⟨rfl, rfl, rfl⟩) hopen nofun (by
        simp only [Mail.replayAlert, hturn]
        rfl)
      exact ⟨f, _, hf, fun t ht => List.mem_singleton.mp ht⟩
  · cases h
    exact ⟨id, [], .refl hu, by simp⟩

/-- Each of the transitions closes its alert, or is not in the log. -/
def Anew (m : Mail) (ts : List Transition) : Prop := ∀ t ∈ ts, t.Closes ∨ ¬ m.Has t

/-- An alert call in two stages: it expires rows, and then does its own work. -/
def Stages (m : Mail) (fresh : Prop) (n : Mail) : Prop :=
  ∃ l f ts g us, Touches m f ts l ∧ Anew m ts ∧ Touches l g us n ∧ (fresh → Anew l us)

theorem Touches.stages {fresh : Prop} {f : Alert → Alert} {ts : List Transition} (hu : AlertsUnique m.alerts)
    (h : Touches m f ts n) (hnew : fresh → Anew m ts) : Stages m fresh n :=
  ⟨m, id, [], f, ts, .refl hu, by simp [Anew], h, hnew⟩

theorem Stages.refl {fresh : Prop} (hu : AlertsUnique m.alerts) : Stages m fresh m :=
  (Touches.refl hu).stages hu fun _ => by simp [Anew]

/-- The turn that selects has not claimed the mail before. -/
def SelectsAnew (m : Mail) (turn : AcceptedTurn) (now : Instant) (ref : Option AlertRef) : Prop :=
  ∀ n row view, m.expireAlerts now = .ok n → n.chooseAlert turn now ref = .ok (some row, view) →
    ¬ n.Has ⟨row.1.mailId, .alert, .selected, .claimed turn⟩

theorem selectAlert_touches (hu : AlertsUnique m.alerts) {turn : AcceptedTurn} {now : Instant}
    {ref : Option AlertRef} {view : Option AlertView} (h : m.selectAlert turn now ref = .ok (view, n)) :
    Stages m (SelectsAnew m turn now ref) n := by
  obtain ⟨_, hturn, h⟩ := Except.bind_eq_ok.mp h
  obtain ⟨l, hl, h⟩ := Except.bind_eq_ok.mp h
  obtain ⟨⟨chosen, old⟩, hchoose, h⟩ := Except.bind_eq_ok.mp h
  obtain ⟨f, ts, hexpired, hcloses⟩ := expireAlerts_touches hu hl
  have hanew : Anew m ts := fun t ht => Or.inl (hcloses t ht)
  cases chosen with
  | none =>
      cases h
      exact hexpired.stages hu fun _ => hanew
  | some row =>
      have hmem := (mem_alertRows (chooseAlert_mem hchoose)).1
      obtain ⟨g, us, hclaimed, hus⟩ := claimAlert_touches hexpired.unique hmem hturn h
      refine ⟨l, f, ts, g, us, hexpired, hanew, hclaimed, fun hnew t ht => Or.inr ?_⟩
      rw [hus t ht]
      exact hnew l row old hl hchoose

/-! ## Closing -/

/-- The alert of the event was not put off to the instant before. -/
def DefersAnew (m : Mail) (source event : String) (t : Instant) : Prop :=
  ∀ a ∈ m.alerts, a.sourceId = source → a.eventId = event →
    ¬ m.Has ⟨a.mailId, .alert, .deferred, .notBefore t⟩

theorem transitionAlert_touches (hu : AlertsUnique m.alerts) {source event : String} {status : AlertStatus}
    {notBefore : Option Instant} {claim : Option (String × AcceptedTurn)} {expiresBefore : Option Instant}
    {changed : Bool} (hselected : status ≠ .selected) (hdefer : status = .pending ↔ notBefore ≠ none)
    (h : m.transitionAlert source event status notBefore claim expiresBefore = .ok (changed, n)) :
    Stages m (∀ t, notBefore = some t → DefersAnew m source event t) n := by
  obtain ⟨_, _, h⟩ := Except.bind_eq_ok.mp h
  obtain ⟨_, _, h⟩ := Except.bind_eq_ok.mp h
  split at h
  · split at h
    · cases h
      exact .refl hu
    · cases h
  · next row hrow =>
      have hmem := List.mem_of_find?_eq_some hrow
      obtain ⟨rfl, rfl, hsel⟩ : row.sourceId = source ∧ row.eventId = event ∧ row.status = .selected := by
        simpa using List.find?_some hrow
      split at h
      · obtain ⟨l, hl, h⟩ := Except.bind_eq_ok.mp h
        obtain ⟨k, hk, h⟩ := Except.bind_eq_ok.mp h
        cases h
        -- Only a deferral has an instant.
        cases notBefore with
        | none =>
            have hpending : status ≠ .pending := fun hp => hdefer.mp hp rfl
            have hreplay : Mail.replayAlert row ⟨row.mailId, .alert, status.mail, .empty⟩ =
                .ok { row with status, notBefore := row.notBefore, accepted := none } := by
              cases status with
              | pending => exact absurd rfl hpending
              | selected => exact absurd rfl hselected
              | delivered => rfl
              | skipped => rfl
              | expired => rfl
            have hcloses : Transition.Closes ⟨row.mailId, .alert, status.mail, .empty⟩ := by
              cases status with
              | pending => exact absurd rfl hpending
              | selected => exact absurd rfl hselected
              | delivered => exact Or.inl rfl
              | skipped => exact Or.inr (Or.inl rfl)
              | expired => exact Or.inr (Or.inr rfl)
            obtain ⟨f, hf⟩ := touches_row hu hmem hl hk (fun _ => ⟨rfl, rfl, rfl⟩) (Or.inr hsel)
              (by cases status <;> exact nofun) hreplay
            refine hf.stages hu fun _ t ht => ?_
            rw [List.mem_singleton.mp ht]
            exact Or.inl hcloses
        | some t =>
            obtain rfl : status = .pending := hdefer.mpr (by simp)
            obtain ⟨f, hf⟩ := touches_row hu hmem hl hk (fun _ => ⟨rfl, rfl, rfl⟩) (Or.inr hsel) nofun rfl
            refine hf.stages hu fun hnew u ht => ?_
            rw [List.mem_singleton.mp ht]
            exact Or.inr (hnew t rfl row hmem rfl rfl)
      · cases h
        exact .refl hu

theorem changeAlert_touches (hu : AlertsUnique m.alerts) {ref : AlertRef} {turn : AcceptedTurn}
    {action : AlertAction} {now : Instant} {notBefore : Option Instant} {changed : Bool}
    (h : m.changeAlert ref turn action now notBefore = .ok (changed, n)) :
    Stages m (∀ t, notBefore = some t → DefersAnew m ref.sourceId ref.eventId t) n := by
  obtain ⟨_, hdefer, h⟩ := Except.bind_eq_ok.mp h
  obtain ⟨_, _, h⟩ := Except.bind_eq_ok.mp h
  obtain ⟨_, _, h⟩ := Except.bind_eq_ok.mp h
  refine transitionAlert_touches hu ?_ ?_ h
  · cases action <;> exact nofun
  · rw [← ensure_eq_ok.mp hdefer]
    cases action <;> simp [AlertAction.status]

theorem expireAlert_touches (hu : AlertsUnique m.alerts) {source event : String} {now : Instant}
    {changed : Bool} (h : m.expireAlert source event now = .ok (changed, n)) : Stages m True n := by
  obtain ⟨_, _, h⟩ := Except.bind_eq_ok.mp h
  obtain ⟨_, _, h⟩ := Except.bind_eq_ok.mp h
  split at h
  · cases h
    exact .refl hu
  · next row hrow =>
      have hmem := List.mem_of_find?_eq_some hrow
      obtain ⟨rfl, rfl⟩ : row.sourceId = source ∧ row.eventId = event := by
        simpa using List.find?_some hrow
      split at h
      · next hdue =>
          obtain ⟨l, hl, h⟩ := Except.bind_eq_ok.mp h
          obtain ⟨k, hk, h⟩ := Except.bind_eq_ok.mp h
          cases h
          obtain ⟨f, hf⟩ := touches_row hu hmem hl hk keepsAlert_expire hdue.2 nofun rfl
          refine hf.stages hu fun _ t ht => ?_
          rw [List.mem_singleton.mp ht]
          exact Or.inl (Or.inr (Or.inr rfl))
      · cases h
        exact .refl hu

theorem alertDeadline_touches (hu : AlertsUnique m.alerts) {now : Instant} {deadline : Option Instant}
    (h : m.alertDeadline now = .ok (deadline, n)) : Stages m True n := by
  obtain ⟨l, hl, h⟩ := Except.bind_eq_ok.mp h
  cases h
  obtain ⟨f, ts, hexpired, hcloses⟩ := expireAlerts_touches hu hl
  exact hexpired.stages hu fun _ t ht => Or.inl (hcloses t ht)

theorem deferAlert_touches (hu : AlertsUnique m.alerts) {source event : String} {notBefore : Instant}
    {changed : Bool} (h : m.deferAlert source event notBefore = .ok (changed, n)) :
    Stages m (∀ t, some notBefore = some t → DefersAnew m source event t) n := by
  refine transitionAlert_touches hu ?_ ?_ h
  · exact nofun
  · simp

theorem closeAlert_touches (hu : AlertsUnique m.alerts) {source event : String} {delivered changed : Bool}
    (h : m.closeAlert source event delivered = .ok (changed, n)) :
    Stages m (∀ t, none = some t → DefersAnew m source event t) n := by
  refine transitionAlert_touches hu ?_ ?_ h
  · cases delivered <;> exact nofun
  · cases delivered <;> simp

/-- The call claims or closes alerts. -/
def OfAlert : MailCall → Prop
  | .selectAlert .. | .deferAlert .. | .closeAlert .. | .changeAlert .. | .expireAlert ..
  | .alertDeadline .. => True
  | _ => False

/-- What the call does to an alert was not done to its mail before. -/
def AlertAnew (m : Mail) : MailCall → Prop
  | .selectAlert turn now ref => SelectsAnew m turn now ref
  | .deferAlert source event notBefore => DefersAnew m source event notBefore
  | .changeAlert ref _ _ _ notBefore => ∀ t, notBefore = some t → DefersAnew m ref.sourceId ref.eventId t
  | _ => True

theorem Stages.mono {fresh fresh' : Prop} (h : Stages m fresh n) (hle : fresh' → fresh) :
    Stages m fresh' n := by
  obtain ⟨l, f, ts, g, us, hf, hts, hg, hus⟩ := h
  exact ⟨l, f, ts, g, us, hf, hts, hg, fun hnew => hus (hle hnew)⟩

theorem touches_of_run (hu : AlertsUnique m.alerts) {call : MailCall} (hof : OfAlert call)
    (hrun : call.run m = .ok n) : Stages m (AlertAnew m call) n := by
  cases call with
  | selectAlert turn now ref =>
      obtain ⟨r, hrun⟩ := run_ok hrun
      exact selectAlert_touches hu hrun
  | deferAlert source event notBefore =>
      obtain ⟨r, hrun⟩ := run_ok hrun
      refine (deferAlert_touches hu hrun).mono fun hnew t ht => ?_
      exact Option.some.inj ht ▸ hnew
  | closeAlert source event delivered =>
      obtain ⟨r, hrun⟩ := run_ok hrun
      exact (closeAlert_touches hu hrun).mono fun _ _ ht => nomatch ht
  | changeAlert ref turn action now notBefore =>
      obtain ⟨r, hrun⟩ := run_ok hrun
      exact changeAlert_touches hu hrun
  | expireAlert source event now =>
      obtain ⟨r, hrun⟩ := run_ok hrun
      exact expireAlert_touches hu hrun
  | alertDeadline now =>
      obtain ⟨r, hrun⟩ := run_ok hrun
      exact alertDeadline_touches hu hrun
  | _ => exact hof.elim

end MonoAgent.EventMail
