import MonoAgent.Attachments.Uploads

/-!
# Uploaded bytes are the committed chunks

What holds of an upload in every state of a run, whatever is sent again and wherever a
fault strikes.
-/

namespace MonoAgent.Attachments

open MonoAgent.Lib MonoAgent.Lib.Exec

variable {digest : List UInt8 → String} {maxAttachmentBytes : Nat} {attachmentId : String} {u : Upload}

/-- A chunk that the upload has room for. -/
def AttachmentRecord.Takes (r : AttachmentRecord) (deviceId : String) (data : List UInt8) : Prop :=
  r.deviceId = some deviceId ∧ data ≠ [] ∧ data.length ≤ maxAttachmentChunkBytes ∧
    r.transferredBytes + data.length ≤ r.sizeBytes

/-- What holds of an upload. -/
structure Upload.Exact (digest : List UInt8 → String) (maxAttachmentBytes : Nat) (attachmentId : String) (u : Upload) :
    Prop where
  /-- After the file was brought in step it is the chunks committed since the last reset. -/
  reconciled : ∀ d path known fault r v,
    (beginUpload maxAttachmentBytes attachmentId d path known).run ⟨u, fault⟩ = (.ok r, v) →
      v.upload.record = some r ∧ v.upload.file = v.upload.chunks.flatten ∧ v.upload.file.length = r.transferredBytes ∧
        v.upload.chunks = if u.isFailed then [] else u.chunks
  committed : ∀ deviceId offset data fault a v,
    (appendChunk deviceId attachmentId offset data).run ⟨u, fault⟩ = (.ok a, v) →
      v.upload.record = some a.1 ∧ v.upload.chunks = u.chunks ++ [data] ∧ v.upload.file = v.upload.chunks.flatten
  /-- The offset a call returns is the one that is accepted next. -/
  asked : ∀ a fault r v deviceId data, (Action.run digest maxAttachmentBytes attachmentId a).run ⟨u, fault⟩ = (.ok r, v) →
    r.Takes deviceId data → ∀ offset,
      (∃ b w, (appendChunk deviceId attachmentId offset data).run ⟨v.upload, none⟩ = (.ok b, w)) ↔
        offset = r.transferredBytes
  /-- A call that raises moves no offset, and no byte before it but in a reset that has emptied the file. -/
  raised : ∀ a fault e v, (Action.run digest maxAttachmentBytes attachmentId a).run ⟨u, fault⟩ = (.error e, v) →
    u.Keeps v.upload ∨ u.Emptied v.upload ∧ ∃ d path known, a = .beginUpload d path known
  ready : ∀ r, u.record = some r → r.state = .ready →
    u.file = u.chunks.flatten ∧ u.file.length = r.sizeBytes ∧ digest u.file = r.sha256

theorem UploadInv.asked {r : AttachmentRecord} {deviceId : String} {data : List UInt8} {offset : Nat}
    (h : UploadInv digest attachmentId u) (hrec : u.Reconciled r) (htakes : r.Takes deviceId data) :
    (∃ b w, (appendChunk deviceId attachmentId offset data).run ⟨u, none⟩ = (.ok b, w)) ↔
      offset = r.transferredBytes := by
  have hpost := post_appendChunk deviceId offset data (c := ⟨u, none⟩) h
  obtain ⟨hdevice, hdata, hlong, hfits⟩ := htakes
  have ht := h.tells r hrec.record
  constructor
  · rintro ⟨b, w, hrun⟩
    obtain ⟨-, -, -, -, -, r', ha⟩ := hpost.1 b w hrun
    cases Option.some.inj (hrec.record.symm.trans ha.record)
    exact ha.next
  · rintro rfl
    rcases hpost.cases with ⟨b, w, hrun, -⟩ | ⟨_, _, -, he⟩
    · exact ⟨b, w, hrun⟩
    · have hstate : r.state = .transferring := by
        cases hs : r.state with
        | transferring => rfl
        | failed => exact absurd hs hrec.live
        | ready =>
            have hpos := List.length_pos_iff.mpr hdata
            have hfull := (ht.whole hs).2.1
            omega
      exact absurd
        { record := hrec.record
          named := ⟨ht.nonempty, ht.named⟩
          owner := ⟨ht.upload, hdevice⟩
          state := hstate
          size := ⟨hdata, hlong⟩
          next := rfl
          fits := hfits } (he.2.2 rfl r)

/-- In every state of a run of uploads, resends, resets and faults. -/
theorem uploads_exact (h : (uploadMachine digest maxAttachmentBytes attachmentId).Reachable u) :
    u.Exact digest maxAttachmentBytes attachmentId := by
  have hinv := uploadInv_reach h
  exact {
    reconciled := fun d path known fault r v hrun => by
      obtain ⟨hi, hr, hchunks⟩ := (post_beginUpload (c := ⟨u, fault⟩) hinv).1 r v hrun
      exact ⟨hr.record, hr.file, by rw [hr.file, (hi.tells r hr.record).transferred], hchunks⟩
    committed := fun deviceId offset data fault a v hrun => by
      obtain ⟨-, hr, -, hchunks, hfile, -⟩ := (post_appendChunk _ _ _ (c := ⟨u, fault⟩) hinv).1 a v hrun
      exact ⟨hr, hchunks, hfile⟩
    asked := fun a fault r v deviceId data hrun htakes offset => by
      obtain ⟨hi, hr⟩ := (post_run _ _ (c := ⟨u, fault⟩) hinv).1 r v hrun
      exact hi.asked hr htakes
    raised := fun a fault e v hrun => ((post_run _ _ (c := ⟨u, fault⟩) hinv).2 e v hrun).2
    ready := fun r hr hstate => by
      have ht := hinv.tells r hr
      obtain ⟨hfile, hfull, hdigest⟩ := ht.whole hstate
      exact ⟨hfile, by rw [hfile, ← ht.transferred, hfull], hdigest⟩ }

/-! ## A digest that does not match -/

/-- SHA-256 of the three bytes that are sent. -/
def badDigest (data : List UInt8) : String :=
  if data = [98, 97, 100] then "2f05d4b689d270cafb02285f35f44866f7dc8a2d368a3f9d1124373eeab31fb1" else ""

def goodFile : Declaration where
  deviceId := "device-1"
  sessionId := "akashic:1"
  filename := "bad.bin"
  contentType := "application/octet-stream"
  sizeBytes := 3
  sha256 := "770e607624d689265ca6c44884d0807d9b054d23c473c106c72be9de08b7376c"

/-- The bytes are not those that were declared. -/
def mismatchRun : List (Action × Option Fault) :=
  [(.beginUpload goodFile "mobile_1.bin" true, none), (.appendChunk "device-1" 0 [98, 97, 100], none),
    (.finishUpload "device-1" "akashic:1", none)]

def mismatched : Upload := ((uploadMachine badDigest 1024 "a1").run {} mismatchRun).getD {}

theorem mismatched_reach : (uploadMachine badDigest 1024 "a1").Reachable mismatched :=
  Machine.reach_getD rfl (fun _ _ _ => trivial) rfl

/-- The database raises when the second chunk is in the file.  The client asks for the offset, sends
the chunk again, and once more; the digest does not match, and a new upload begins. -/
def resentRun : List (Action × Option Fault) :=
  [(.beginUpload goodFile "mobile_1.bin" true, none), (.appendChunk "device-1" 0 [98], none),
    (.appendChunk "device-1" 1 [97, 100], some ⟨3, .io⟩), (.beginUpload goodFile "mobile_2.bin" true, none),
    (.appendChunk "device-1" 1 [97, 100], none), (.appendChunk "device-1" 1 [97, 100], none),
    (.finishUpload "device-1" "akashic:1", none), (.beginUpload goodFile "mobile_3.bin" true, none),
    (.appendChunk "device-1" 0 [98, 97], none)]

/-- The upload after some of these calls. -/
def resent (calls : ℕ) : Upload := ((uploadMachine badDigest 1024 "a1").run {} (resentRun.take calls)).getD {}

theorem uploads_exact_example :
    (resent 3).file = [98, 97, 100] ∧ (resent 3).chunks = [[98]] ∧ (resent 3).Exact badDigest 1024 "a1" ∧
    (resent 7).chunks = [[98], [97, 100]] ∧ (resent 7).Exact badDigest 1024 "a1" ∧
    (resent 9).chunks = [[98, 97]] ∧ (resent 9).Exact badDigest 1024 "a1" := by
  have hreach (calls : ℕ) (h : ((uploadMachine badDigest 1024 "a1").run {} (resentRun.take calls)).isSome = true) :
      (resent calls).Exact badDigest 1024 "a1" :=
    uploads_exact (Machine.reach_getD rfl (fun _ _ _ => trivial) h)
  exact ⟨by decide +kernel, by decide +kernel, hreach 3 rfl, by decide +kernel, hreach 7 rfl, by decide +kernel,
    hreach 9 rfl⟩

/-- The reset has emptied the file when the database raises: the offset still says three bytes. -/
theorem reset_loses_bytes : ∃ u fault v, (uploadMachine badDigest 1024 "a1").Reachable u ∧
    ((Action.beginUpload goodFile "mobile_2.bin" true).run badDigest 1024 "a1").run ⟨u, fault⟩ = (.error .io, v) ∧
    u.record.map (·.transferredBytes) = some 3 ∧ v.upload.record = u.record ∧ u.file.take 3 = [98, 97, 100] ∧
    v.upload.file = [] ∧ ¬ u.Keeps v.upload := by
  have hfile : mismatched.file = [98, 97, 100] := by decide +kernel
  have hoffset : mismatched.record.map (·.transferredBytes) = some 3 := by decide +kernel
  refine ⟨mismatched, some ⟨1, .io⟩, ⟨{ mismatched with file := [] }, some ⟨0, .io⟩⟩, mismatched_reach, ?_, hoffset, rfl,
    by rw [hfile]; rfl, rfl, fun hkeeps => ?_⟩
  · decide +kernel
  · obtain ⟨r, hr, hthree⟩ := Option.map_eq_some_iff.mp hoffset
    have hbytes := hkeeps.bytes r hr
    rw [hthree, hfile] at hbytes
    exact nomatch hbytes

end MonoAgent.Attachments
