import MonoAgent.EventMail.Touches

/-!
# What a report writes

A report names a mail.  It leaves the mail as it is when the event has that mail
already, adds the mail behind a newer one, or puts it in the place of the one before.
-/

namespace MonoAgent.EventMail

open MonoAgent.Lib MonoAgent.Session

variable {m n : Mail}

/-- The log of a mail that was just received. -/
def receivedMark (inserted : Bool) (key : MailKey) : List Transition :=
  if inserted then [⟨key.id, key.kind, .received, .empty⟩] else []

def supersededMark (mailId : String) (kind : MailKind) (by_ : String) : Transition :=
  ⟨mailId, kind, .superseded, .supersededBy by_⟩

/-- The log of a mail that came after a newer one. -/
def olderMarks (inserted : Bool) (key : MailKey) (by_ : String) : List Transition :=
  if inserted then [⟨key.id, key.kind, .received, .empty⟩, supersededMark key.id key.kind by_] else []

/-- What a report does to the mail that has its envelope. -/
inductive Reports (key : MailKey) (inserted : Bool) (a : Mail) (projected : Mail → Option String)
    (publish : Mail → String → Except Error Mail) : Mail → Prop where
  /-- The event has the mail. -/
  | replayed (row : Envelope) (hrow : a.current (projected a) = some row) (hid : row.mailId = key.id) :
      Reports key inserted a projected publish a
  /-- The event has a newer mail. -/
  | older (row : Envelope) (hrow : a.current (projected a) = some row) (hid : row.mailId ≠ key.id)
      (hold : key.revision < row.observedAt) :
      Reports key inserted a projected publish
        (a.log (olderMarks inserted key row.mailId))
  /-- The event has no mail. -/
  | first (l : Mail) (hnone : a.current (projected a) = none) (hl : publish a key.id = .ok l) :
      Reports key inserted a projected publish
        (l.log (receivedMark inserted key))
  /-- The mail supersedes the one the event has. -/
  | newer (row : Envelope) (l : Mail) (hrow : a.current (projected a) = some row)
      (hid : row.mailId ≠ key.id) (hnew : ¬ key.revision < row.observedAt)
      (hl : publish (a.log [supersededMark row.mailId key.kind key.id]) key.id = .ok l) :
      Reports key inserted a projected publish
        (l.log (receivedMark inserted key))

theorem received_ok {inserted : Bool} {key : MailKey}
    (h : m.receive inserted key = .ok n) :
    n = m.log (receivedMark inserted key) := by
  cases inserted with
  | false =>
      cases h
      rfl
  | true => exact appendTransition_log h

theorem report_ok {kind : MailKind} {label source event payload : String} {observed : Instant}
    {notBefore expiry : Option Instant} {projected : Mail → Option String}
    {publish : Mail → String → Except Error Mail} {r : Reported}
    (h : m.report kind label source event payload observed notBefore expiry projected publish =
      .ok (r, n)) : ∃ inserted a,
    m.appendEnvelope ⟨kind, source, event, observed⟩ payload observed notBefore expiry =
      .ok (inserted, a) ∧ Reports ⟨kind, source, event, observed⟩ inserted a projected publish n := by
  obtain ⟨_, _, h⟩ := Except.bind_eq_ok.mp h
  obtain ⟨_, _, h⟩ := Except.bind_eq_ok.mp h
  obtain ⟨_, _, h⟩ := Except.bind_eq_ok.mp h
  obtain ⟨⟨inserted, a⟩, ha, h⟩ := Except.bind_eq_ok.mp h
  refine ⟨inserted, a, ha, ?_⟩
  dsimp only at h
  split at h
  · next row hrow =>
      split at h
      · next hid =>
          cases h
          exact .replayed row hrow hid
      · next hid =>
          split at h
          · next hold =>
              split at h
              · next hinserted =>
                  obtain ⟨b, hb, h⟩ := Except.bind_eq_ok.mp h
                  obtain ⟨c, hc, h⟩ := Except.bind_eq_ok.mp h
                  cases h
                  have heq : n = a.log (olderMarks inserted ⟨kind, source, event, observed⟩ row.mailId) := by
                    rw [appendTransition_log hc, appendTransition_log hb, hinserted]
                    rfl
                  rw [heq]
                  exact .older row hrow hid hold
              · next hinserted =>
                  cases h
                  have hfalse : inserted = false := by simpa using hinserted
                  subst hfalse
                  exact .older row hrow hid hold
          · next hnew =>
              obtain ⟨b, hb, h⟩ := Except.bind_eq_ok.mp h
              obtain ⟨c, hc, h⟩ := Except.bind_eq_ok.mp h
              obtain ⟨d, hd, h⟩ := Except.bind_eq_ok.mp h
              cases h
              rw [received_ok hd]
              rw [appendTransition_log hb] at hc
              exact .newer row c hrow hid hnew hc
  · next hnone =>
      obtain ⟨c, hc, h⟩ := Except.bind_eq_ok.mp h
      obtain ⟨d, hd, h⟩ := Except.bind_eq_ok.mp h
      cases h
      rw [received_ok hd]
      exact .first c hnone hc

end MonoAgent.EventMail
