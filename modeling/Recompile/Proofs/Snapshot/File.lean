import Recompile.Snapshot.File
import Recompile.Proofs.Snapshot.Wire

/-!
# Snapshot files are read back

`decode_of_encode` says what a reader makes of a file that was written, whichever producer and task
wrote it: nothing but the limits on what reading claims, the producer and the task decide.

Writing bounds the bytes and reading bounds the claims, and the two bounds are not the same
(`decode_encode`). A header whose texts come close to the limit is written and refused
(`decode_encode_longTask`).
-/

namespace Recompile.SnapshotFile

/-- How much of its budget the reader of a header claims. -/
def headerClaim (producer task : String) : Nat :=
  4 + (Wire.caseClaim + (Wire.textClaim producer + (Wire.textClaim task + Wire.digestClaim)))

/-! ## The header -/

theorem takes_header {producer task : String} {payload : Bytes}
    (h : (headerOf producer task payload).toBytes.length ≤ maxHeader) :
    Header.reader.Takes (headerOf producer task payload).toBytes (headerClaim producer task)
      (headerOf producer task payload) := by
  have hbytes : (headerOf producer task payload).toBytes = magic ++ (Wire.number formatVersion ++
      (Wire.text producer ++ (Wire.text task ++ Wire.digest (.ofContent payload)))) := by
    simp [Header.toBytes, headerOf]
  rw [hbytes]
  simp only [hbytes, List.length_append, maxHeader] at h
  have hmagic : (Wire.Reader.times .byte 4).Takes magic 4 magic := Wire.Reader.takes_bytes magic
  have hproducer := Wire.Reader.takes_text (s := producer) (by omega)
  have htask := Wire.Reader.takes_text (s := task) (by omega)
  exact hmagic.bind ((Wire.Reader.takes_case formatVersion (by decide)).bind (hproducer.bind
    (htask.bind ((Wire.Reader.takes_digest (.ofContent payload)).last rfl))))

theorem length_header (producer task : String) (payload : Bytes) :
    (headerOf producer task payload).toBytes.length =
      (Wire.text producer).length + (Wire.text task).length + 21 := by
  have hversion : (Wire.number formatVersion).length = 1 := rfl
  have hmagic : magic.length = 4 := rfl
  simp only [Header.toBytes, headerOf, List.length_append, hmagic, hversion, Wire.digest,
    Digest.length_toBytes]
  omega

/-! ## The file -/

theorem exists_encode {producer task : String} {s : Snapshot}
    (hheader : (Wire.text producer).length + (Wire.text task).length + 21 ≤ maxHeader)
    (hpayload : (Wire.snapshot s).length ≤ maxPayload) :
    ∃ raw, encode producer task s = .ok raw := by
  unfold encode
  dsimp only
  rw [length_header, if_neg (Nat.not_lt.2 hheader), if_neg (Nat.not_lt.2 hpayload)]
  exact ⟨_, rfl⟩

theorem encode_eq_ok {producer task : String} {s : Snapshot} {raw : Bytes}
    (h : encode producer task s = .ok raw) :
    (headerOf producer task (Wire.snapshot s)).toBytes.length ≤ maxHeader ∧
      (Wire.snapshot s).length ≤ maxPayload ∧
      raw = Bytes.littleEndian 4 (headerOf producer task (Wire.snapshot s)).toBytes.length ++
        (headerOf producer task (Wire.snapshot s)).toBytes ++ Wire.snapshot s := by
  unfold encode at h
  dsimp only at h
  split at h
  · cases h
  · next hheader =>
    split at h
    · cases h
    · next hpayload =>
      cases h
      exact ⟨Nat.le_of_not_gt hheader, Nat.le_of_not_gt hpayload, rfl⟩

/-- A written file through the eyes of a reader: the header has to be read within its limit and to
name the reader's producer and task, and then the payload has to be read within its own. -/
theorem decode_of_encode {producer' task' : String} {s : Snapshot} {raw : Bytes}
    (h : encode producer' task' s = .ok raw) (producer : String) (path : Path) (task : String) :
    decode producer path task raw =
      if maxHeader < headerClaim producer' task' then .error (.invalidHeader path .undecodable)
      else if producer' ≠ producer then .error (.versionMismatch path producer producer')
      else if task' ≠ task then .error (.invalidHeader path .otherTask)
      else if maxPayload < Wire.snapshotClaim s then .error (.coding .undecodable)
      else .ok s := by
  obtain ⟨hheader, hpayload, rfl⟩ := encode_eq_ok h
  have hread := (takes_header hheader).run_eq maxHeader
  have hsnapshot := (Wire.Reader.takes_snapshot (s := s)
    (Nat.lt_of_le_of_lt hpayload (by decide))).run_eq maxPayload
  generalize hbytes : (headerOf producer' task' (Wire.snapshot s)).toBytes = header at *
  have hlength : Bytes.ofLittleEndian (Bytes.littleEndian 4 header.length) = header.length := by
    rw [Bytes.ofLittleEndian_littleEndian]
    exact Nat.mod_eq_of_lt (Nat.lt_of_le_of_lt hheader (by decide))
  have htake : (Bytes.littleEndian 4 header.length ++ header ++ Wire.snapshot s).take 4 =
      Bytes.littleEndian 4 header.length := by
    rw [List.append_assoc, List.take_left' (Bytes.length_littleEndian 4 _)]
  have hdrop : (Bytes.littleEndian 4 header.length ++ header ++ Wire.snapshot s).drop 4 =
      header ++ Wire.snapshot s := by
    rw [List.append_assoc, List.drop_left' (Bytes.length_littleEndian 4 _)]
  unfold decode
  simp only [htake, hdrop, hlength, Bytes.length_littleEndian, List.take_left, List.drop_left,
    hread, hsnapshot]
  rw [if_neg (by decide), if_neg (Nat.not_lt.2 hheader), if_neg (Nat.lt_irrefl _)]
  by_cases hclaim : maxHeader < headerClaim producer' task'
  · rw [if_pos hclaim, if_neg (Nat.not_le.2 hclaim)]
  · rw [if_neg hclaim, if_pos (Nat.not_lt.1 hclaim)]
    dsimp only [headerOf]
    rw [if_neg (not_not.2 rfl), if_neg (not_not.2 rfl)]
    by_cases hpayloadClaim : maxPayload < Wire.snapshotClaim s
    · rw [if_neg (Nat.not_lt.2 hpayload), if_pos hpayloadClaim, if_neg (Nat.not_le.2 hpayloadClaim)]
      simp
    · rw [if_neg (Nat.not_lt.2 hpayload), if_neg hpayloadClaim, if_pos (Nat.not_lt.1 hpayloadClaim)]
      simp

/-- **What is written is read back within the limits on claims.** The same producer reads a file
that it wrote for the task as the same snapshot exactly when reading the header and reading the
payload claim no more than they may. Otherwise the file is refused, though it was written. -/
theorem decode_encode {producer task : String} {s : Snapshot} {raw : Bytes}
    (h : encode producer task s = .ok raw) (path : Path) :
    decode producer path task raw =
      if maxHeader < headerClaim producer task then .error (.invalidHeader path .undecodable)
      else if maxPayload < Wire.snapshotClaim s then .error (.coding .undecodable)
      else .ok s := by
  rw [decode_of_encode h, if_neg (not_not.2 rfl), if_neg (not_not.2 rfl)]

/-- A snapshot of one source that includes a header of its own directory. -/
def oneHeader : Snapshot :=
  (Snapshot.empty.addSource (.ofText "a.c")).addFile
    ⟨.ofText "a.c", .ofText "1", .ofList [⟨"a.h", .quoted, .includes⟩],
      [⟨⟨"a.h", .quoted, .includes⟩, .resolved (.ofText "a.h") (.ofText "2")⟩]⟩

theorem decode_encode_oneHeader : ∃ raw, encode "0.1.0" ":app" oneHeader = .ok raw ∧
    decode "0.1.0" (.ofText "c") ":app" raw = .ok oneHeader := by
  obtain ⟨raw, hraw⟩ : ∃ raw, encode "0.1.0" ":app" oneHeader = .ok raw :=
    exists_encode (by decide +kernel) (by decide +kernel)
  have hheader : ¬ maxHeader < headerClaim "0.1.0" ":app" := by decide +kernel
  have hpayload : ¬ maxPayload < Wire.snapshotClaim oneHeader := by decide +kernel
  refine ⟨raw, hraw, ?_⟩
  rw [decode_encode hraw, if_neg hheader, if_neg hpayload]

/-- A task whose name is so many letters. -/
def taskOfLength (n : Nat) : String := String.ofList (List.replicate n 't')

theorem length_taskOfLength (n : Nat) : (Utf8.ofString (taskOfLength n)).length = n := by
  have hletter : (String.utf8EncodeChar 't').length = 1 := rfl
  rw [taskOfLength, Utf8.ofString, String.toList_ofList, Utf8.encode, List.length_flatMap,
    List.map_replicate, hletter, List.sum_replicate_nat, Nat.mul_one]

/-- The header of the task has 65530 bytes and is written, and reading it claims 65545. -/
theorem decode_encode_longTask : ∃ raw, encode "0.1.0" (taskOfLength 65500) ∅ = .ok raw ∧
    decode "0.1.0" (.ofText "c") (taskOfLength 65500) raw =
      .error (.invalidHeader (.ofText "c") .undecodable) := by
  have htext : (Wire.text (taskOfLength 65500)).length = 65503 := by
    rw [Wire.text, List.length_append, length_taskOfLength]
    decide
  have hproducer : (Wire.text "0.1.0").length = 6 := by decide +kernel
  have hclaim : maxHeader < headerClaim "0.1.0" (taskOfLength 65500) := by
    have hshort : (Utf8.ofString "0.1.0").length = 5 := by decide +kernel
    rw [headerClaim, Wire.textClaim, Wire.textClaim, hshort, length_taskOfLength]
    decide
  obtain ⟨raw, hraw⟩ : ∃ raw, encode "0.1.0" (taskOfLength 65500) ∅ = .ok raw :=
    exists_encode (by rw [htext, hproducer]; decide) (by decide +kernel)
  refine ⟨raw, hraw, ?_⟩
  rw [decode_encode hraw, if_pos hclaim]

end Recompile.SnapshotFile
