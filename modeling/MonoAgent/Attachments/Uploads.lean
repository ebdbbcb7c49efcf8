import MonoAgent.Attachments.Service
import MonoAgent.Lib.Machine

/-!
# What an upload holds

While an attachment is transferring, the committed chunks are the first bytes of its file.
A call that ends without a result, by a check or by a fault, leaves them and the stored
offset as they were; the reset of a failed upload is the exception, since it empties the
file before it puts the offset back.
-/

namespace MonoAgent.Attachments

open MonoAgent.Lib MonoAgent.Lib.Exec

variable {digest : List UInt8 → String} {maxAttachmentBytes : Nat} {attachmentId : String} {c : Call} {u v : Upload}

/-! ## Writes -/

theorem post_write {f : Upload → Upload} {Q : Unit → Call → Prop} {E : Failure → Call → Prop}
    (hq : ∀ left, (c.fault = none → left = none) → Q () ⟨f c.upload, left⟩) (he : ∀ e, c.fault ≠ none → E e c) :
    Post (write f) c Q E := by
  obtain ⟨upload, fault⟩ := c
  constructor
  · intro a t hr
    match fault, hr with
    | none, hr =>
        cases hr
        exact hq none fun _ => rfl
    | some ⟨0, _⟩, hr => cases hr
    | some ⟨n + 1, e⟩, hr =>
        cases hr
        exact hq _ fun h => nomatch h
  · intro e t hr
    match fault, hr with
    | none, hr => cases hr
    | some ⟨0, _⟩, hr =>
        cases hr
        exact he _ fun h => nomatch h
    | some ⟨_ + 1, _⟩, hr => cases hr

/-- A fault leaves the bytes that were written before it. -/
theorem post_writeAll {data : List UInt8} {Q : Unit → Call → Prop} {E : Failure → Call → Prop}
    (hq : ∀ left, (c.fault = none → left = none) → Q () ⟨{ c.upload with file := c.upload.file ++ data }, left⟩)
    (he : ∀ e written left, c.fault ≠ none → E e ⟨{ c.upload with file := c.upload.file ++ written }, left⟩) :
    Post (writeAll data) c Q E := by
  induction data generalizing c with
  | nil =>
      have h := hq c.fault id
      rw [List.append_nil] at h
      exact post_pure h
  | cons byte rest ih =>
      refine post_bind (post_write (fun left hleft => ?_) fun e hf => ?_)
      · refine ih (fun left' hleft' => ?_) fun e written left' hf => ?_
        · have h := hq left' fun hn => hleft' (hleft hn)
          simpa [Upload.put] using h
        · have h := he e (byte :: written) left' fun hn => hf (hleft hn)
          simpa [Upload.put] using h
      · have h := he e [] c.fault hf
        rw [List.append_nil] at h
        exact h

theorem post_update {p : AttachmentRecord → Bool} {error : Failure} {f : AttachmentRecord → AttachmentRecord}
    {g : List (List UInt8) → List (List UInt8)} {Q : AttachmentRecord → Call → Prop} {E : Failure → Call → Prop}
    {r : AttachmentRecord} (hr : c.upload.record = some r) (hp : p r = true)
    (hq : ∀ left, (c.fault = none → left = none) →
      Q (f r) ⟨{ c.upload with record := some (f r), chunks := g c.upload.chunks }, left⟩)
    (he : ∀ e, c.fault ≠ none → E e c) : Post (update p error f g) c Q E := by
  refine post_bind (post_read ?_)
  rw [hr]
  show Post (if p r = true then _ else _) c Q E
  rw [if_pos hp]
  exact post_bind (post_write (fun left hleft => post_pure (hq left hleft)) he)

theorem post_readAttachment {Q : Option AttachmentRecord → Call → Prop} {E : Failure → Call → Prop}
    (hq : attachmentId ≠ "" → Q (c.upload.record.filter (·.attachmentId = attachmentId)) c)
    (he : ∀ e, attachmentId = "" → E e c) : Post (readAttachment attachmentId) c Q E :=
  post_bind (post_check (fun h => post_read (hq h)) fun h => he _ (not_not.mp h))

/-! ## The invariant -/

/-- The record says what the file and the committed chunks are. -/
structure AttachmentRecord.Tells (digest : List UInt8 → String) (attachmentId : String) (u : Upload)
    (r : AttachmentRecord) : Prop where
  nonempty : attachmentId ≠ ""
  named : r.attachmentId = attachmentId
  upload : r.direction = .upload
  transferred : r.transferredBytes = u.chunks.flatten.length
  fits : r.transferredBytes ≤ r.sizeBytes
  written : r.state = .transferring → u.chunks.flatten <+: u.file
  whole : r.state = .ready → u.file = u.chunks.flatten ∧ r.transferredBytes = r.sizeBytes ∧ digest u.file = r.sha256

structure UploadInv (digest : List UInt8 → String) (attachmentId : String) (u : Upload) : Prop where
  absent : u.record = none → u.chunks = []
  tells : ∀ r, u.record = some r → r.Tells digest attachmentId u

/-- The stored offset and the bytes before it are the same. -/
structure Upload.Keeps (u v : Upload) : Prop where
  chunks : v.chunks = u.chunks
  offset : v.record.map (·.transferredBytes) = u.record.map (·.transferredBytes)
  bytes : ∀ r, u.record = some r → v.file.take r.transferredBytes = u.file.take r.transferredBytes

theorem Upload.Keeps.refl : u.Keeps u := ⟨rfl, rfl, fun _ _ => rfl⟩

def Upload.isFailed (u : Upload) : Bool := u.record.any (·.state = .failed)

/-- The file of a failed upload was emptied, its offset not yet put back. -/
structure Upload.Emptied (u v : Upload) : Prop where
  failed : u.isFailed = true
  same : v = { u with file := [] }

/-- Another file, of which only a transferring record says something. -/
theorem UploadInv.refile {r : AttachmentRecord} {file : List UInt8} (h : UploadInv digest attachmentId u)
    (hr : u.record = some r) (hready : r.state ≠ .ready) (hfile : r.state = .transferring → u.chunks.flatten <+: file) :
    UploadInv digest attachmentId { u with file := file } where
  absent := h.absent
  tells := by
    rintro r' hr'
    cases Option.some.inj (hr.symm.trans hr')
    have ht := h.tells r hr
    exact {
      nonempty := ht.nonempty
      named := ht.named
      upload := ht.upload
      transferred := ht.transferred
      fits := ht.fits
      written := hfile
      whole := fun h' => absurd h' hready }

/-- The first bytes of the file are the committed chunks. -/
theorem AttachmentRecord.Tells.take {r : AttachmentRecord} (h : r.Tells digest attachmentId u)
    (hstate : r.state = .transferring) : u.file.take r.transferredBytes = u.chunks.flatten := by
  rw [h.transferred]
  exact (List.prefix_iff_eq_take.mp (h.written hstate)).symm

/-- While a chunk is written, the file is the committed chunks and what there is of this one. -/
theorem UploadInv.writing {r : AttachmentRecord} (h : UploadInv digest attachmentId u) (hr : u.record = some r)
    (hstate : r.state = .transferring) (written : List UInt8) :
    UploadInv digest attachmentId { u with file := u.file.take r.transferredBytes ++ written } ∧
      u.Keeps { u with file := u.file.take r.transferredBytes ++ written } := by
  have ht := h.tells r hr
  refine ⟨h.refile hr (by rw [hstate]; exact (nomatch ·)) fun _ => ?_, rfl, rfl, fun r' hr' => ?_⟩
  · rw [ht.take hstate]
    exact List.prefix_append ..
  · cases Option.some.inj (hr.symm.trans hr')
    have hlen : r.transferredBytes ≤ u.file.length := by
      rw [ht.transferred]
      exact (ht.written hstate).length_le
    show (u.file.take _ ++ written).take _ = _
    rw [List.take_append_of_le_length (by rw [List.length_take_of_le hlen]), List.take_take, min_self]

/-- The chunk was written whole, and the offset moves over it. -/
theorem UploadInv.advanced {r : AttachmentRecord} {data : List UInt8} (h : UploadInv digest attachmentId u)
    (hr : u.record = some r) (hstate : r.state = .transferring) (hfits : r.transferredBytes + data.length ≤ r.sizeBytes) :
    UploadInv digest attachmentId
      { record := some { r with transferredBytes := r.transferredBytes + data.length },
        file := u.file.take r.transferredBytes ++ data, chunks := u.chunks ++ [data] } ∧
      u.file.take r.transferredBytes ++ data = (u.chunks ++ [data]).flatten := by
  have ht := h.tells r hr
  have hflat : (u.chunks ++ [data]).flatten = u.chunks.flatten ++ data := by simp
  have hfile : u.file.take r.transferredBytes ++ data = (u.chunks ++ [data]).flatten := by
    rw [ht.take hstate, hflat]
  refine ⟨⟨fun hn => (nomatch hn), fun r' hr' => ?_⟩, hfile⟩
  cases Option.some.inj hr'
  exact {
    nonempty := ht.nonempty
    named := ht.named
    upload := ht.upload
    transferred := by
      show r.transferredBytes + data.length = _
      rw [hflat, List.length_append, ← ht.transferred]
    fits := hfits
    written := fun _ => hfile ▸ List.prefix_refl _
    whole := fun hready => nomatch hstate.symm.trans hready }

/-! ## The calls -/

/-- The chunk a transferring upload takes. -/
structure Upload.Accepts (u : Upload) (deviceId attachmentId : String) (offset : Nat) (data : List UInt8)
    (r : AttachmentRecord) : Prop where
  record : u.record = some r
  named : attachmentId ≠ "" ∧ r.attachmentId = attachmentId
  owner : r.direction = .upload ∧ r.deviceId = some deviceId
  state : r.state = .transferring
  size : data ≠ [] ∧ data.length ≤ maxAttachmentChunkBytes
  next : offset = r.transferredBytes
  fits : offset + data.length ≤ r.sizeBytes

/-- A chunk is committed whole, or the call changes nothing that was committed. -/
theorem post_appendChunk (deviceId : String) (offset : Nat) (data : List UInt8)
    (h : UploadInv digest attachmentId c.upload) :
    Post (appendChunk deviceId attachmentId offset data) c
      (fun a t => UploadInv digest attachmentId t.upload ∧ t.upload.record = some a.1 ∧ a.1.state = .transferring ∧
        t.upload.chunks = c.upload.chunks ++ [data] ∧ t.upload.file = t.upload.chunks.flatten ∧
        ∃ r, c.upload.Accepts deviceId attachmentId offset data r)
      (fun _ t => UploadInv digest attachmentId t.upload ∧ c.upload.Keeps t.upload ∧
        (c.fault = none → ∀ r, ¬ c.upload.Accepts deviceId attachmentId offset data r)) := by
  refine post_bind (post_check (fun hsize => ?_) fun hsize => ⟨h, .refl, fun _ _ ha => hsize ha.size⟩)
  refine post_bind (post_bind (post_readAttachment (fun hid => ?_) fun e hid => ⟨h, .refl, fun _ _ ha => ha.named.1 hid⟩))
  cases hread : c.upload.record.filter (·.attachmentId = attachmentId) with
  | none =>
      refine post_throw ⟨h, .refl, fun _ r ha => ?_⟩
      rw [ha.record, Option.filter_eq_none_iff] at hread
      exact hread r rfl (decide_eq_true ha.named.2)
  | some record =>
      obtain ⟨hrec, hname⟩ := Option.filter_eq_some_iff.mp hread
      have hsame : ∀ r, c.upload.Accepts deviceId attachmentId offset data r → r = record := fun r ha =>
        Option.some.inj (ha.record.symm.trans hrec)
      have ht := h.tells record hrec
      refine post_bind (post_check (fun howner => ?_) fun howner => ⟨h, .refl, fun _ r ha => ?_⟩)
      · refine post_bind (post_check (fun hstate => ?_) fun hstate => ⟨h, .refl, fun _ r ha => ?_⟩)
        · refine post_pure (post_bind (post_check (fun hnext => ?_) fun hnext => ⟨h, .refl, fun _ r ha => ?_⟩))
          · refine post_bind (post_check (fun hfits => ?_) fun hfits => ⟨h, .refl, fun _ r ha => ?_⟩)
            · have hlen : record.transferredBytes ≤ c.upload.file.length := by
                rw [ht.transferred]
                exact (ht.written hstate).length_le
              refine post_bind (post_read (post_bind (post_check (fun _ => ?_) fun hno => absurd hlen hno)))
              refine post_bind (post_write (fun left hleft => ?_) fun e hf => ⟨h, .refl, fun hn => absurd hn hf⟩)
              have hwritten := fun written => h.writing hrec hstate written
              refine post_bind (post_writeAll (fun left' hleft' => ?_) fun e written left' hf => ?_)
              · refine post_bind (post_bind (post_check (fun _ => ?_) fun hno => ?_))
                · refine post_update (r := record) hrec ?_ (fun left'' hleft'' => ?_) fun e hf => ?_
                  · have hdev := howner.2
                    simp [AttachmentRecord.isUpload, hdev, howner.1, hstate, ← hnext, hfits]
                  · subst hnext
                    obtain ⟨hinv, hfile⟩ := h.advanced hrec hstate hfits
                    exact post_pure ⟨hinv, rfl, hstate, rfl, hfile, record, hrec, ⟨hid, ht.named⟩, howner, hstate,
                      hsize, rfl, hfits⟩
                  · exact ⟨(hwritten data).1, (hwritten data).2, fun hn => absurd (hleft' (hleft hn)) hf⟩
                · have hpos := List.length_pos_iff.mpr hsize.1
                  exact absurd (by rw [hnext]; omega) hno
              · exact ⟨(hwritten written).1, (hwritten written).2, fun hn => absurd (hleft hn) hf⟩
            · rw [hsame r ha] at ha
              exact hfits ha.fits
          · rw [hsame r ha] at ha
            exact hnext ha.next
        · rw [hsame r ha] at ha
          exact hstate ha.state
      · rw [hsame r ha] at ha
        exact howner ha.owner

/-- The record that is returned is the stored one, and the file is its committed chunks. -/
structure Upload.Reconciled (u : Upload) (r : AttachmentRecord) : Prop where
  record : u.record = some r
  live : r.state ≠ .failed
  file : u.file = u.chunks.flatten

theorem post_resetFailed {r : AttachmentRecord} {deviceId : String} (h : UploadInv digest attachmentId c.upload)
    (hr : c.upload.record = some r) (hstate : r.state = .failed) (hdevice : r.deviceId = some deviceId) :
    Post (resetFailed r) c (fun a t => UploadInv digest attachmentId t.upload ∧ t.upload.Reconciled a ∧
        t.upload.chunks = if c.upload.isFailed then [] else c.upload.chunks)
      (fun _ t => UploadInv digest attachmentId t.upload ∧ (c.upload.Keeps t.upload ∨ c.upload.Emptied t.upload)) := by
  have ht := h.tells r hr
  have hready : r.state ≠ .ready := by rw [hstate]; exact (nomatch ·)
  refine post_bind (post_write (fun left _ => ?_) fun e _ => ⟨h, Or.inl .refl⟩)
  rw [hdevice]
  refine post_update (r := r) hr ?_ (fun left' _ => ?_) fun e _ => ?_
  · simp [AttachmentRecord.isUpload, hdevice, ht.upload, hstate]
  · refine ⟨⟨fun hn => (nomatch hn), fun r' hr' => ?_⟩, ⟨rfl, (nomatch ·), rfl⟩, by simp [Upload.isFailed, hr, hstate]⟩
    cases Option.some.inj hr'
    exact {
      nonempty := ht.nonempty
      named := ht.named
      upload := ht.upload
      transferred := rfl
      fits := Nat.zero_le _
      written := fun _ => List.nil_prefix
      whole := fun hready => nomatch hready }
  · exact ⟨h.refile hr hready fun h' => (nomatch hstate.symm.trans h'), Or.inr ⟨by simp [Upload.isFailed, hr, hstate], rfl⟩⟩

theorem post_reconcile {r : AttachmentRecord} {deviceId : String} (h : UploadInv digest attachmentId c.upload)
    (hr : c.upload.record = some r) (hdevice : r.deviceId = some deviceId) :
    Post (reconcileExistingUpload r) c (fun a t => UploadInv digest attachmentId t.upload ∧ t.upload.Reconciled a ∧
        t.upload.chunks = if c.upload.isFailed then [] else c.upload.chunks)
      (fun _ t => UploadInv digest attachmentId t.upload ∧ (c.upload.Keeps t.upload ∨ c.upload.Emptied t.upload)) := by
  have ht := h.tells r hr
  have hchunks : r.state ≠ .failed → c.upload.chunks = if c.upload.isFailed then [] else c.upload.chunks := fun hlive => by
    rw [Upload.isFailed, hr, Option.any_some, decide_eq_false hlive, if_neg Bool.false_ne_true]
  unfold reconcileExistingUpload
  cases hstate : r.state with
  | failed => exact post_resetFailed h hr hstate hdevice
  | ready =>
      have hlive : r.state ≠ .failed := by rw [hstate]; exact (nomatch ·)
      exact post_pure ⟨h, ⟨hr, hlive, (ht.whole hstate).1⟩, hchunks hlive⟩
  | transferring =>
      have hlive : r.state ≠ .failed := by rw [hstate]; exact (nomatch ·)
      have hlen : r.transferredBytes ≤ c.upload.file.length := by
        rw [ht.transferred]
        exact (ht.written hstate).length_le
      refine post_bind (post_read ?_)
      rw [if_neg (Nat.not_lt.mpr hlen)]
      split
      · refine post_bind (post_write (fun left _ => post_pure ⟨?_, ⟨hr, hlive, ht.take hstate⟩, hchunks hlive⟩) fun e _ => ⟨h, Or.inl .refl⟩)
        exact h.refile hr (by rw [hstate]; exact (nomatch ·)) fun _ => ht.take hstate ▸ List.prefix_refl _
      · next hlong =>
          refine post_pure ⟨h, ⟨hr, hlive, ?_⟩, hchunks hlive⟩
          rw [← ht.take hstate, List.take_of_length_le (Nat.not_lt.mp hlong)]

/-- A new upload, or an old one brought back in step with its file. -/
theorem post_beginUpload {d : Declaration} {path : String} {known : Bool} (h : UploadInv digest attachmentId c.upload) :
    Post (beginUpload maxAttachmentBytes attachmentId d path known) c
      (fun a t => UploadInv digest attachmentId t.upload ∧ t.upload.Reconciled a ∧
        t.upload.chunks = if c.upload.isFailed then [] else c.upload.chunks)
      (fun _ t => UploadInv digest attachmentId t.upload ∧ (c.upload.Keeps t.upload ∨ c.upload.Emptied t.upload)) := by
  have hkeep : UploadInv digest attachmentId c.upload ∧ (c.upload.Keeps c.upload ∨ c.upload.Emptied c.upload) :=
    ⟨h, Or.inl .refl⟩
  refine post_bind (post_check (fun hsize => ?_) fun _ => hkeep)
  refine post_bind (post_liftExcept (fun filename _ => ?_) fun _ _ => hkeep)
  refine post_bind (post_liftExcept (fun _ _ => ?_) fun _ _ => hkeep)
  refine post_bind (post_check (fun _ => ?_) fun _ => hkeep)
  refine post_bind (post_readAttachment (fun hid => ?_) fun _ _ => hkeep)
  cases hread : c.upload.record.filter (·.attachmentId = attachmentId) with
  | some existing =>
      have hr := (Option.filter_eq_some_iff.mp hread).1
      refine post_bind (post_check (fun hsame => ?_) fun _ => hkeep)
      have hdevice : existing.deviceId = some d.deviceId := by
        have hdecl := hsame.2
        simp only [AttachmentRecord.declares, decide_eq_true_eq] at hdecl
        exact hdecl.1
      exact post_reconcile h hr hdevice
  | none =>
      have hnone : c.upload.record = none := by
        cases hrec : c.upload.record with
        | none => rfl
        | some r =>
            rw [Option.filter_eq_none_iff] at hread
            exact absurd (decide_eq_true (h.tells r hrec).named) (hread r hrec)
      have hkeeps : ∀ left : Option Fault, UploadInv digest attachmentId { c.upload with file := [] } ∧
          (c.upload.Keeps { c.upload with file := [] } ∨ c.upload.Emptied { c.upload with file := [] }) := fun _ =>
        ⟨⟨h.absent, fun r hr => nomatch hnone.symm.trans hr⟩,
          Or.inl ⟨rfl, rfl, fun r hr => nomatch hnone.symm.trans hr⟩⟩
      refine post_bind (post_write (fun left _ => ?_) fun _ _ => hkeep)
      refine post_bind (post_check (fun _ => ?_) fun _ => hkeeps left)
      refine post_bind (post_check (fun _ => ?_) fun _ => hkeeps left)
      refine post_bind (post_check (fun _ => ?_) fun _ => hkeeps left)
      refine post_bind (post_check (fun _ => ?_) fun _ => hkeeps left)
      refine post_bind (post_check (fun _ => ?_) fun _ => hkeeps left)
      refine post_bind (post_check (fun _ => ?_) fun _ => hkeeps left)
      refine post_bind (post_check (fun _ => ?_) fun _ => hkeeps left)
      refine post_bind (post_write (fun left' _ => post_pure ?_) fun _ _ => hkeeps left)
      have hempty := h.absent hnone
      refine ⟨⟨fun hn => (nomatch hn), fun r hr => ?_⟩, ⟨rfl, (nomatch ·), ?_⟩, by simp [Upload.isFailed, hnone]⟩
      · cases Option.some.inj hr
        exact {
          nonempty := hid
          named := rfl
          upload := rfl
          transferred := by simp [hempty]
          fits := Nat.zero_le _
          written := fun _ => by simp [hempty]
          whole := fun hready => nomatch hready }
      · simp [hempty]

/-- A record with the same identity and offset. -/
theorem UploadInv.restate {r : AttachmentRecord} (r' : AttachmentRecord) (h : UploadInv digest attachmentId u) (hr : u.record = some r)
    (hnamed : r'.attachmentId = r.attachmentId) (hupload : r'.direction = r.direction)
    (htransferred : r'.transferredBytes = r.transferredBytes) (hsize : r'.sizeBytes = r.sizeBytes)
    (hwritten : r'.state ≠ .transferring)
    (hwhole : r'.state = .ready → u.file = u.chunks.flatten ∧ r'.transferredBytes = r'.sizeBytes ∧ digest u.file = r'.sha256) :
    UploadInv digest attachmentId { u with record := some r' } ∧ u.Keeps { u with record := some r' } := by
  have ht := h.tells r hr
  refine ⟨⟨fun hn => (nomatch hn), fun r'' hr'' => ?_⟩, rfl, ?_, fun _ _ => rfl⟩
  · cases Option.some.inj hr''
    exact {
      nonempty := ht.nonempty
      named := hnamed.trans ht.named
      upload := hupload.trans ht.upload
      transferred := htransferred.trans ht.transferred
      fits := by rw [htransferred, hsize]; exact ht.fits
      written := fun hwr => absurd hwr hwritten
      whole := hwhole }
  · rw [hr]
    exact congrArg some htransferred

theorem post_finishUpload {deviceId sessionId : String} (h : UploadInv digest attachmentId c.upload) :
    Post (finishUpload digest deviceId sessionId attachmentId) c
      (fun a t => UploadInv digest attachmentId t.upload ∧ t.upload.Reconciled a ∧ a.state = .ready ∧
        t.upload.file = c.upload.file ∧ t.upload.chunks = c.upload.chunks)
      (fun _ t => UploadInv digest attachmentId t.upload ∧ c.upload.Keeps t.upload) := by
  have hkeep : UploadInv digest attachmentId c.upload ∧ c.upload.Keeps c.upload := ⟨h, .refl⟩
  refine post_bind (post_bind (post_readAttachment (fun _ => ?_) fun _ _ => hkeep))
  cases hread : c.upload.record.filter (·.attachmentId = attachmentId) with
  | none => exact post_throw hkeep
  | some r =>
      have hr := (Option.filter_eq_some_iff.mp hread).1
      have ht := h.tells r hr
      refine post_bind (post_check (fun howner => post_pure ?_) fun _ => hkeep)
      cases hstate : r.state with
      | ready => exact post_pure ⟨h, ⟨hr, by rw [hstate]; exact (nomatch ·), (ht.whole hstate).1⟩, hstate, rfl, rfl⟩
      | failed => exact post_throw hkeep
      | transferring =>
          refine post_bind (post_check (fun hfull => ?_) fun _ => hkeep)
          refine post_bind (post_read (post_bind (post_check (fun hlen => ?_) fun _ => hkeep)))
          have hfile : c.upload.file = c.upload.chunks.flatten := by
            rw [← ht.take hstate, List.take_of_length_le (by rw [hlen, hfull])]
          split
          · refine post_bind (post_update (r := r) hr ?_ (fun left _ => ?_) fun _ _ => hkeep)
            · simp [AttachmentRecord.isUpload, ht.named, ht.upload, howner.2.1, hstate]
            · exact post_throw (h.restate _ hr rfl rfl rfl rfl (nomatch ·) (nomatch ·))
          · next hdigest =>
              have hwhole := not_not.mp hdigest
              refine post_update (r := r) hr ?_ (fun left _ => ?_) fun _ _ => hkeep
              · simp [AttachmentRecord.isUpload, ht.named, ht.upload, howner.2.1, hstate, hfull]
              · have hnext := h.restate { r with state := .ready } hr rfl rfl rfl rfl (nomatch ·)
                  fun _ => ⟨hfile, hfull, hwhole⟩
                exact ⟨hnext.1, ⟨rfl, (nomatch ·), hfile⟩, rfl, rfl, rfl⟩

/-! ## Runs -/

/-- A call of the service. -/
inductive Action where
  | beginUpload (d : Declaration) (path : String) (known : Bool)
  | appendChunk (deviceId : String) (offset : Nat) (data : List UInt8)
  | finishUpload (deviceId sessionId : String)

def Action.run (digest : List UInt8 → String) (maxAttachmentBytes : Nat) (attachmentId : String) :
    Action → Exec Failure Call AttachmentRecord
  | .beginUpload d path known => Attachments.beginUpload maxAttachmentBytes attachmentId d path known
  | .appendChunk deviceId offset data => Prod.fst <$> Attachments.appendChunk deviceId attachmentId offset data
  | .finishUpload deviceId sessionId => Attachments.finishUpload digest deviceId sessionId attachmentId

/-- Calls on one attachment, each with the fault that strikes it. -/
def uploadMachine (digest : List UInt8 → String) (maxAttachmentBytes : Nat) (attachmentId : String) :
    Machine Upload (Action × Option Fault) where
  start u := u = {}
  next u a := some ((a.1.run digest maxAttachmentBytes attachmentId).run ⟨u, a.2⟩).2.upload

theorem post_run (maxAttachmentBytes : Nat) (a : Action) (h : UploadInv digest attachmentId c.upload) :
    Post (a.run digest maxAttachmentBytes attachmentId) c
      (fun r t => UploadInv digest attachmentId t.upload ∧ t.upload.Reconciled r)
      (fun _ t => UploadInv digest attachmentId t.upload ∧ (c.upload.Keeps t.upload ∨
        c.upload.Emptied t.upload ∧ ∃ d path known, a = .beginUpload d path known)) := by
  cases a with
  | beginUpload d path known =>
      refine (post_beginUpload h).mono (fun _ _ hq => ⟨hq.1, hq.2.1⟩) fun _ _ he => ⟨he.1, ?_⟩
      exact he.2.imp_right fun hemptied => ⟨hemptied, d, path, known, rfl⟩
  | appendChunk deviceId offset data =>
      refine post_map ((post_appendChunk _ _ _ h).mono (fun a t hq => ?_) fun _ _ he => ⟨he.1, Or.inl he.2.1⟩)
      obtain ⟨hinv, hrec, hstate, -, hfile, -⟩ := hq
      exact ⟨hinv, hrec, by rw [hstate]; exact (nomatch ·), hfile⟩
  | finishUpload deviceId sessionId =>
      exact (post_finishUpload h).mono (fun _ _ hq => ⟨hq.1, hq.2.1⟩) fun _ _ he => ⟨he.1, Or.inl he.2⟩

theorem uploadInv_reach (h : (uploadMachine digest maxAttachmentBytes attachmentId).Reachable u) :
    UploadInv digest attachmentId u := by
  refine h.invariant ?_ ?_
  · rintro s rfl
    exact ⟨fun _ => rfl, fun _ hr => nomatch hr⟩
  · intro s a t hs _ hn
    cases Option.some.inj hn
    rcases (post_run maxAttachmentBytes a.1 (c := ⟨s, a.2⟩) hs).cases with
      ⟨_, _, hrun, hq⟩ | ⟨_, _, hrun, he⟩
    · rw [hrun]
      exact hq.1
    · rw [hrun]
      exact he.1

end MonoAgent.Attachments
