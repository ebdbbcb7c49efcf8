import MonoAgent.Session.Append

/-!
# The invariant through one append

A stored message extends the log of its Session in the sense of `Appends` and
keeps `LogInvariant`.
-/

namespace MonoAgent.Session

open MonoAgent.Lib Database

namespace Stored

variable {w : Writer} {now : Instant} {request : AppendRequest} {db db' : Database} {m : Message}

theorem snapshot_same (h : Stored w now request db m db') :
    db'.snapshot m.sessionId = db.snapshot m.sessionId ++ [m] := by
  rw [snapshot, h.messages, List.filter_append]
  simp [snapshot]

theorem snapshot_other (h : Stored w now request db m db') {sessionId : String}
    (hne : sessionId ≠ m.sessionId) : db'.snapshot sessionId = db.snapshot sessionId := by
  rw [snapshot, h.messages, List.filter_append]
  simp [snapshot, hne.symm]

/-- The seq of a new message counts the log of its Session. -/
theorem seq_eq (h : Stored w now request db m db') (hinv : LogInvariant db) :
    m.seq = (db.snapshot m.sessionId).length := by
  rw [h.seq, h.sessionId]
  cases hs : db.session? w.sessionId with
  | some s =>
      have hmem := List.mem_of_find?_eq_some hs
      have hkey : s.key = w.sessionId := by simpa using List.find?_some hs
      rw [← hkey]
      exact hinv.nextSeq s hmem
  | none =>
      have hnil : db.snapshot w.sessionId = [] := by
        refine List.filter_eq_nil_iff.mpr fun x hx hsid => ?_
        obtain ⟨s, hsm, hkey⟩ := List.mem_map.mp (hinv.known x hx)
        have hne := List.find?_eq_none.mp hs s hsm
        rw [decide_eq_true_eq] at hsid hne
        exact hne (hkey.trans hsid)
      rw [hnil]
      rfl

/-- A stored message extends the log of its Session. -/
theorem appends (h : Stored w now request db m db') (hinv : LogInvariant db) :
    Appends (db.snapshot m.sessionId) m where
  seq := h.seq_eq hinv
  session := fun _ hx => (LogInvariant.mem_snapshot.mp hx).2
  fresh := fun x hx => h.fresh x (LogInvariant.mem_snapshot.mp hx).1
  result := by
    intro ref href
    obtain ⟨⟨q, hq, hqs, hsrc, hcall⟩, hnone⟩ := h.result ref href
    refine ⟨⟨q, LogInvariant.mem_snapshot.mpr ⟨hq, hqs⟩, hsrc, hcall⟩, fun r hr => ?_⟩
    exact hnone r (LogInvariant.mem_snapshot.mp hr).1

/-- The ordinals of a new message count its attachments, the others are kept. -/
theorem ordinals (h : Stored w now request db m db') (hinv : LogInvariant db) (id : String) :
    ∃ k, (db'.messageAttachments.filter (·.messageId = id)).map (·.ordinal) = List.range k := by
  obtain ⟨artifacts, hlinks⟩ := h.attachments
  obtain ⟨k, hk⟩ := hinv.ordinals id
  rw [hlinks, List.filter_append, List.map_append]
  by_cases hid : id = m.messageId
  · have hold : db.messageAttachments.filter (·.messageId = id) = [] := by
      refine List.filter_eq_nil_iff.mpr fun a ha heq => ?_
      rw [decide_eq_true_eq] at heq
      obtain ⟨x, hx, hxid⟩ := List.mem_map.mp (hinv.attached a ha)
      exact h.fresh x hx (hxid.trans (heq.trans hid))
    have hnew : (artifacts.zipIdx.map fun a => (⟨m.messageId, a.2, a.1⟩ : AttachmentLink)).filter
        (·.messageId = id) = artifacts.zipIdx.map fun a => ⟨m.messageId, a.2, a.1⟩ := by
      refine List.filter_eq_self.mpr fun a ha => ?_
      obtain ⟨_, _, rfl⟩ := List.mem_map.mp ha
      simp [hid]
    refine ⟨artifacts.length, ?_⟩
    rw [hold, hnew, List.map_map]
    show [] ++ artifacts.zipIdx.map Prod.snd = _
    rw [List.zipIdx_map_snd]
    simp [List.range_eq_range']
  · have hnew : (artifacts.zipIdx.map fun a => (⟨m.messageId, a.2, a.1⟩ : AttachmentLink)).filter
        (·.messageId = id) = [] := by
      refine List.filter_eq_nil_iff.mpr fun a ha => ?_
      obtain ⟨_, _, rfl⟩ := List.mem_map.mp ha
      simpa using fun heq => hid heq.symm
    exact ⟨k, by rw [hnew, hk]; simp⟩

/-- An append keeps the representation invariant. -/
theorem invariant (h : Stored w now request db m db') (hinv : LogInvariant db) :
    LogInvariant db' where
  wellFormed := by
    intro sessionId
    by_cases hsid : sessionId = m.sessionId
    · rw [hsid, h.snapshot_same]
      exact .snoc (hinv.wellFormed _) (h.appends hinv)
    · rw [h.snapshot_other hsid]
      exact hinv.wellFormed sessionId
  nextSeq := by
    intro s hs
    have hrow := h.sessions s hs
    by_cases hkey : s.key = m.sessionId
    · rw [if_pos hkey] at hrow
      rw [hrow, hkey, h.snapshot_same, List.length_append, List.length_singleton,
        h.seq_eq hinv]
    · rw [if_neg hkey] at hrow
      rw [h.snapshot_other hkey]
      exact hinv.nextSeq s hrow
  known := by
    intro x hx
    rw [h.messages, List.mem_append, List.mem_singleton] at hx
    rw [h.keys]
    rcases hx with hx | rfl
    · have hold := hinv.known x hx
      split
      · exact hold
      · exact List.mem_append_left _ hold
    · split
      · next hmem => exact hmem
      · exact List.mem_append_right _ (List.mem_singleton_self _)
  keys := by
    rw [h.keys]
    split
    · exact hinv.keys
    · next hnew =>
        refine List.nodup_append.mpr ⟨hinv.keys, List.nodup_singleton _, ?_⟩
        intro a ha b hb hab
        rw [List.mem_singleton.mp hb] at hab
        exact hnew (hab ▸ ha)
  ids := by
    rw [h.messages, List.map_append]
    refine List.nodup_append.mpr ⟨hinv.ids, List.nodup_singleton _, ?_⟩
    intro a ha b hb hab
    obtain ⟨x, hx, rfl⟩ := List.mem_map.mp ha
    rw [List.mem_singleton.mp hb] at hab
    exact h.fresh x hx hab
  ordinals := h.ordinals hinv
  attached := by
    intro a ha
    obtain ⟨artifacts, hlinks⟩ := h.attachments
    rw [hlinks] at ha
    rw [h.messages, List.map_append, List.mem_append]
    rcases List.mem_append.mp ha with ha | ha
    · exact Or.inl (hinv.attached a ha)
    · obtain ⟨_, _, rfl⟩ := List.mem_map.mp ha
      exact Or.inr (List.mem_singleton_self _)

end Stored

/-! ## Other statements -/

/-- The tables the invariant reads. -/
theorem LogInvariant.congr {db db' : Database} (h : LogInvariant db)
    (hsessions : db'.sessions = db.sessions) (hmessages : db'.messages = db.messages)
    (hlinks : db'.messageAttachments = db.messageAttachments) : LogInvariant db' := by
  have hsnapshot : db'.snapshot = db.snapshot := by
    funext sessionId
    rw [snapshot, hmessages, snapshot]
  constructor
  · rw [hsnapshot]; exact h.wellFormed
  · rw [hsessions, hsnapshot]; exact h.nextSeq
  · rw [hmessages, hsessions]; exact h.known
  · rw [hsessions]; exact h.keys
  · rw [hmessages]; exact h.ids
  · rw [hlinks]; exact h.ordinals
  · rw [hlinks, hmessages]; exact h.attached

/-- Accepting a Session keeps the invariant: a new one has no message yet. -/
theorem LogInvariant.withSession {db : Database} (h : LogInvariant db) {row : SessionRow}
    (hrow : row.nextSeq = 0) : LogInvariant { db with sessions := withSession db row } := by
  refine ⟨h.wellFormed, ?_, ?_, ?_, h.ids, h.ordinals, h.attached⟩
  · intro s hs
    by_cases hkey : s.key = row.key
    · change s ∈ MonoAgent.Session.withSession db row at hs
      rw [MonoAgent.Session.withSession] at hs
      split at hs
      · exact h.nextSeq s hs
      · next hnew =>
          rcases List.mem_append.mp hs with hs | hs
          · exact h.nextSeq s hs
          · cases List.mem_singleton.mp hs
            have hnil : db.snapshot row.key = [] := by
              refine List.filter_eq_nil_iff.mpr fun x hx hsid => ?_
              rw [decide_eq_true_eq] at hsid
              exact hnew (hsid ▸ h.known x hx)
            show row.nextSeq = (db.snapshot row.key).length
            rw [hrow, hnil]
            rfl
    · exact h.nextSeq s (mem_withSession hs hkey)
  · intro m hm
    show _ ∈ (MonoAgent.Session.withSession db row).map _
    rw [withSession_keys]
    split
    · exact h.known m hm
    · exact List.mem_append_left _ (h.known m hm)
  · show ((MonoAgent.Session.withSession db row).map _).Nodup
    rw [withSession_keys]
    split
    · exact h.keys
    · next hnew =>
        refine List.nodup_append.mpr ⟨h.keys, List.nodup_singleton _, ?_⟩
        intro a ha b hb hab
        rw [List.mem_singleton.mp hb] at hab
        exact hnew (hab ▸ ha)

end MonoAgent.Session
