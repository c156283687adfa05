import Recompile.Proofs.Store.Files
import Recompile.Proofs.Wire.Local

/-!
# Damaged snapshot files

A file on the disk may not be what was written: it may be cut off, go on too long, or have other
bytes somewhere. Reading such a file never gives another snapshot (`DirectoryStore.load_damaged`),
as long as no other bytes have the digest of the payload. Which check refuses the file depends on
where it is damaged.

* With the length and the header as they were, any other payload has another digest.
* A length that is too small leaves a header that breaks off, and no reader of headers takes one
  (`Header.local_reader`). One that is too great leaves the header whole, with a part of the payload
  behind it that is not looked at; what remains of the payload is shorter than it was.
* A changed header may be refused or not. Whatever it says, the payload is the one that was written,
  so what is read, if anything, is the snapshot.
-/

namespace Recompile

namespace SnapshotFile

/-! ## Parts of a file -/

/-- How long the header is, as the file says. -/
def headerLength (raw : Bytes) : Nat := Bytes.ofLittleEndian (raw.take 4)

def headerBytes (raw : Bytes) : Bytes := (raw.drop 4).take (headerLength raw)

def payloadBytes (raw : Bytes) : Bytes := (raw.drop 4).drop (headerLength raw)

variable {producer task : String} {path : Path} {s s' : Snapshot} {raw raw' : Bytes}

/-- What a reader has found when it takes a file. -/
theorem decode_eq_ok (h : decode producer path task raw = .ok s) :
    4 ≤ raw.length ∧ (headerBytes raw).length = headerLength raw ∧
      ∃ header, Header.reader.run maxHeader (headerBytes raw) = some header ∧
        Digest.ofContent (payloadBytes raw) = header.checksum ∧
        Wire.Reader.snapshot.run maxPayload (payloadBytes raw) = some s := by
  unfold decode at h
  dsimp only at h
  split at h
  · cases h
  next hfour =>
  split at h
  · cases h
  split at h
  · cases h
  next hlength =>
  split at h
  · cases h
  next header hheader =>
  iterate 5
    split at h
    · cases h
  split at h
  · cases h
  next hchecksum =>
  split at h
  · next hpayload =>
    obtain rfl := Except.ok.inj h
    refine ⟨?_, ?_, header, hheader, not_not.1 hchecksum, hpayload⟩
    · rw [List.length_take] at hfour
      omega
    · have hle : (headerBytes raw).length ≤ headerLength raw := List.length_take_le ..
      exact Nat.le_antisymm hle (Nat.not_lt.1 hlength)
  · cases h

/-- The parts of a file that was written. -/
theorem parts_of_encode (h : encode producer task s = .ok raw) :
    headerBytes raw = (headerOf producer task (Wire.snapshot s)).toBytes ∧
      payloadBytes raw = Wire.snapshot s ∧ (headerBytes raw).length = headerLength raw ∧
      raw.length = 4 + (headerLength raw + (payloadBytes raw).length) := by
  obtain ⟨hheader, -, rfl⟩ := encode_eq_ok h
  generalize (headerOf producer task (Wire.snapshot s)).toBytes = header at hheader ⊢
  have hfour := Bytes.length_littleEndian 4 header.length
  have hlength : headerLength (Bytes.littleEndian 4 header.length ++ header ++ Wire.snapshot s) =
      header.length := by
    rw [headerLength, List.append_assoc, List.take_left' hfour, Bytes.ofLittleEndian_littleEndian]
    exact Nat.mod_eq_of_lt (Nat.lt_of_le_of_lt hheader (by decide))
  have hbytes : headerBytes (Bytes.littleEndian 4 header.length ++ header ++ Wire.snapshot s) =
      header := by
    rw [headerBytes, hlength, List.append_assoc, List.drop_left' hfour, List.take_left]
  have hpayload : payloadBytes (Bytes.littleEndian 4 header.length ++ header ++ Wire.snapshot s) =
      Wire.snapshot s := by
    rw [payloadBytes, hlength, List.append_assoc, List.drop_left' hfour, List.drop_left]
  refine ⟨hbytes, hpayload, by rw [hbytes, hlength], ?_⟩
  rw [hlength, hpayload, List.length_append, List.length_append, hfour, Nat.add_assoc]

/-- A file that is the same up to the end of the header has the same header. -/
theorem parts_of_take_eq
    (h : raw'.take (4 + headerLength raw) = raw.take (4 + headerLength raw)) :
    headerBytes raw' = headerBytes raw ∧ payloadBytes raw' = raw'.drop (4 + headerLength raw) := by
  have hfour : raw'.take 4 = raw.take 4 := by
    have htake := congrArg (List.take 4) h
    rwa [List.take_take, List.take_take, Nat.min_eq_left (Nat.le_add_right 4 _)] at htake
  have hsame : headerLength raw' = headerLength raw := by rw [headerLength, headerLength, hfour]
  refine ⟨?_, by rw [payloadBytes, hsame, List.drop_drop]⟩
  rw [headerBytes, headerBytes, hsame, List.take_drop, List.take_drop, h]

/-! ## What the digest gives away -/

/-- No other bytes that are read as a payload have the digest of the payload that was written. -/
def NoCollision (raw raw' : Bytes) : Prop :=
  Digest.ofContent (payloadBytes raw') = Digest.ofContent (payloadBytes raw) →
    payloadBytes raw' = payloadBytes raw

/-- Behind the header that was written no other payload is taken, whether or not the length says
that the header goes on. -/
theorem payloadBytes_of_decode (hencode : encode producer task s = .ok raw)
    (hdigest : NoCollision raw raw') {more : Bytes}
    (hheader : headerBytes raw' = headerBytes raw ++ more)
    (hdecode : decode producer path task raw' = .ok s') : payloadBytes raw' = payloadBytes raw := by
  obtain ⟨hbytes, hpayload, -⟩ := parts_of_encode hencode
  obtain ⟨-, -, header, hread, hchecksum, -⟩ := decode_eq_ok hdecode
  have hrun := takes_header (encode_eq_ok hencode).1 more maxHeader
  rw [hheader, hbytes, Wire.Reader.run, hrun] at hread
  split at hread
  · obtain rfl := Option.some.inj hread
    refine hdigest ?_
    rw [hchecksum, hpayload]
    rfl
  · cases hread

/-- A header that breaks off is not taken. -/
theorem decode_ne_ok_of_take (hencode : encode producer task s = .ok raw) {n : Nat}
    (hn : n < headerLength raw) (hheader : headerBytes raw' = (headerBytes raw).take n) :
    decode producer path task raw' ≠ .ok s' := by
  obtain ⟨hbytes, -, hlength, -⟩ := parts_of_encode hencode
  intro hdecode
  obtain ⟨-, -, header, hread, -⟩ := decode_eq_ok hdecode
  rw [← hlength, hbytes] at hn
  have hnone := Header.local_reader.eq_none_of_take (takes_header (encode_eq_ok hencode).1) hn
    maxHeader
  rw [hheader, hbytes, Wire.Reader.run, hnone] at hread
  cases hread

/-! ## Kinds of damage -/

/-- The second file is the first with some damage outside the header. -/
inductive Damaged (raw : Bytes) : Bytes → Prop where
  /-- It is cut off. -/
  | cut {k : Nat} (hk : k < raw.length) : Damaged raw (raw.take k)
  /-- It goes on. -/
  | extended {extra : Bytes} (hextra : extra ≠ []) : Damaged raw (raw ++ extra)
  /-- It is the same up to the end of the header, and not behind it. -/
  | payload {raw' : Bytes}
      (hfront : raw'.take (4 + headerLength raw) = raw.take (4 + headerLength raw))
      (hrest : raw'.drop (4 + headerLength raw) ≠ raw.drop (4 + headerLength raw)) :
      Damaged raw raw'
  /-- It has another length of the header. -/
  | length {bytes : Bytes} (hlength : bytes.length = 4) (hbytes : bytes ≠ raw.take 4) :
      Damaged raw (bytes ++ raw.drop 4)

/-- The second file is the first with any bytes in the place of the header, as many as it has. -/
def HeaderChanged (raw raw' : Bytes) : Prop :=
  ∃ header : Bytes, header.length = headerLength raw ∧
    raw' = raw.take 4 ++ (header ++ raw.drop (4 + headerLength raw))

/-- The payload is not taken when it is another one. -/
theorem decode_ne_ok_of_front (hencode : encode producer task s = .ok raw)
    (hdigest : NoCollision raw raw')
    (hfront : raw'.take (4 + headerLength raw) = raw.take (4 + headerLength raw))
    (hrest : raw'.drop (4 + headerLength raw) ≠ raw.drop (4 + headerLength raw)) :
    decode producer path task raw' ≠ .ok s' := by
  obtain ⟨hheader, hpayload⟩ := parts_of_take_eq hfront
  intro hdecode
  have hsame := payloadBytes_of_decode hencode hdigest
    (hheader.trans (List.append_nil _).symm) hdecode
  rw [hpayload, payloadBytes, List.drop_drop] at hsame
  exact hrest hsame

/-- A file that is cut off is not taken: within the length, within the header, or behind it. -/
theorem decode_take_ne_ok (hencode : encode producer task s = .ok raw) {k : Nat}
    (hk : k < raw.length) (hdigest : NoCollision raw (raw.take k)) :
    decode producer path task (raw.take k) ≠ .ok s' := by
  obtain ⟨-, -, hlength, hraw⟩ := parts_of_encode hencode
  intro hdecode
  obtain ⟨hfour, hheader, -⟩ := decode_eq_ok hdecode
  rw [List.length_take] at hfour
  have hsame : headerLength (raw.take k) = headerLength raw := by
    rw [headerLength, headerLength, List.take_take, Nat.min_eq_left (by omega)]
  rw [headerBytes, hsame, List.length_take, List.length_drop, List.length_take] at hheader
  refine decode_ne_ok_of_front hencode hdigest ?_ ?_ hdecode
  · rw [List.take_take, Nat.min_eq_left (by omega)]
  · intro hrest
    have hcount := congrArg List.length hrest
    rw [List.length_drop, List.length_take, List.length_drop] at hcount
    omega

/-- A file with another length of the header is not taken. -/
theorem decode_length_ne_ok (hencode : encode producer task s = .ok raw) {bytes : Bytes}
    (hlength : bytes.length = 4) (hbytes : bytes ≠ raw.take 4)
    (hdigest : NoCollision raw (bytes ++ raw.drop 4)) :
    decode producer path task (bytes ++ raw.drop 4) ≠ .ok s' := by
  obtain ⟨-, -, hheader, hraw⟩ := parts_of_encode hencode
  have htake : (bytes ++ raw.drop 4).take 4 = bytes := List.take_left' hlength
  have hdrop : (bytes ++ raw.drop 4).drop 4 = raw.drop 4 := List.drop_left' hlength
  have hother : headerLength (bytes ++ raw.drop 4) ≠ headerLength raw := by
    intro hsame
    rw [headerLength, headerLength, htake] at hsame
    have hfour : (raw.take 4).length = 4 := by rw [List.length_take]; omega
    exact hbytes (Bytes.ofLittleEndian_inj (hlength.trans hfour.symm) hsame)
  have hbody : raw.drop 4 = headerBytes raw ++ payloadBytes raw := (List.take_append_drop _ _).symm
  generalize hn : headerLength (bytes ++ raw.drop 4) = n at hother
  have hread : headerBytes (bytes ++ raw.drop 4) = (headerBytes raw ++ payloadBytes raw).take n := by
    rw [headerBytes, hn, hdrop, hbody]
  have hleft : payloadBytes (bytes ++ raw.drop 4) = (headerBytes raw ++ payloadBytes raw).drop n := by
    rw [payloadBytes, hn, hdrop, hbody]
  intro hdecode
  rcases Nat.lt_or_gt_of_ne hother with hless | hmore
  · refine decode_ne_ok_of_take hencode hless ?_ hdecode
    rw [hread, List.take_append_of_le_length (by omega)]
  · obtain ⟨m, rfl⟩ : ∃ m, n = (headerBytes raw).length + m :=
      ⟨n - (headerBytes raw).length, by omega⟩
    rw [List.take_length_add_append] at hread
    rw [List.drop_length_add_append] at hleft
    have hsame := payloadBytes_of_decode hencode hdigest hread hdecode
    -- the header is to be followed by `m` bytes of the payload, so there are as many
    obtain ⟨-, hwhole, -⟩ := decode_eq_ok hdecode
    rw [hn, hread, List.length_append, List.length_take] at hwhole
    have hcount := congrArg List.length (hleft.symm.trans hsame)
    rw [List.length_drop] at hcount
    omega

theorem decode_ne_ok_of_damaged (hencode : encode producer task s = .ok raw)
    (hdamaged : Damaged raw raw') (hdigest : NoCollision raw raw') :
    decode producer path task raw' ≠ .ok s' := by
  cases hdamaged with
  | cut hk => exact decode_take_ne_ok hencode hk hdigest
  | @extended extra hextra =>
    obtain ⟨-, -, -, hraw⟩ := parts_of_encode hencode
    refine decode_ne_ok_of_front hencode hdigest ?_ ?_
    · exact List.take_append_of_le_length (by omega)
    · rw [List.drop_append_of_le_length (by omega)]
      exact fun h => hextra (List.append_right_eq_self.1 h)
  | payload hfront hrest => exact decode_ne_ok_of_front hencode hdigest hfront hrest
  | length hlength hbytes => exact decode_length_ne_ok hencode hlength hbytes hdigest

/-- Behind a changed header the same payload is read. -/
theorem eq_of_headerChanged (hencode : encode producer task s = .ok raw)
    (hdecode : decode producer path task raw = .ok s) (hchanged : HeaderChanged raw raw')
    (hdecode' : decode producer path task raw' = .ok s') : s' = s := by
  obtain ⟨-, -, -, hraw⟩ := parts_of_encode hencode
  obtain ⟨header, hlength, rfl⟩ := hchanged
  have hfour : (raw.take 4).length = 4 := by rw [List.length_take]; omega
  have hsame : payloadBytes (raw.take 4 ++ (header ++ raw.drop (4 + headerLength raw))) =
      payloadBytes raw := by
    rw [payloadBytes, headerLength, List.take_left' hfour, List.drop_left' hfour, ← headerLength,
      List.drop_left' hlength, payloadBytes, List.drop_drop]
  obtain ⟨-, -, -, -, -, hread⟩ := decode_eq_ok hdecode
  obtain ⟨-, -, -, -, -, hread'⟩ := decode_eq_ok hdecode'
  rw [hsame, hread] at hread'
  exact (Option.some.inj hread').symm

end SnapshotFile

namespace DirectoryStore

open SnapshotFile

/-- **A damaged file is never read as another snapshot.** Take a file that was written for a task and
is read as the snapshot written. If it is cut off anywhere, goes on, differs behind the header or has
another length of the header, decoding fails, and nothing is loaded from such a file. If any bytes
of the header are others, decoding fails or gives the snapshot written, and so does loading. -/
theorem load_damaged {store : DirectoryStore} {task : String} {s : Snapshot} {raw raw' : Bytes}
    (hencode : encode store.producer task s = .ok raw)
    (hdecode : decode store.producer (store.snapshotPath task) task raw = .ok s)
    (hdigest : NoCollision raw raw') :
    (Damaged raw raw' →
      (∃ e, decode store.producer (store.snapshotPath task) task raw' = .error e) ∧
      ∀ t : FileTree, t.read (store.snapshotPath task) = .ok raw' →
        (store.load t task).value = none) ∧
    (HeaderChanged raw raw' →
      ((∃ e, decode store.producer (store.snapshotPath task) task raw' = .error e) ∨
        decode store.producer (store.snapshotPath task) task raw' = .ok s) ∧
      ∀ t : FileTree, t.read (store.snapshotPath task) = .ok raw' →
        (store.load t task).value = none ∨ (store.load t task).value = some s) := by
  have hload : ∀ t : FileTree, t.read (store.snapshotPath task) = .ok raw' →
      (store.load t task).value =
        (decode store.producer (store.snapshotPath task) task raw').toOption := by
    intro t hread
    rw [value_load_eq, hread]
    rfl
  generalize store.snapshotPath task = path at *
  constructor
  · intro hdamaged
    cases hresult : decode store.producer path task raw' with
    | ok s' => exact absurd hresult (decode_ne_ok_of_damaged hencode hdamaged hdigest)
    | error e =>
      rw [hresult] at hload
      exact ⟨⟨e, rfl⟩, hload⟩
  · intro hchanged
    cases hresult : decode store.producer path task raw' with
    | ok s' =>
      obtain rfl := eq_of_headerChanged hencode hdecode hchanged hresult
      rw [hresult] at hload
      exact ⟨.inr rfl, fun t ht => .inr (hload t ht)⟩
    | error e =>
      rw [hresult] at hload
      exact ⟨.inl ⟨e, rfl⟩, fun t ht => .inl (hload t ht)⟩

/-- The file of a snapshot, without its last byte. -/
theorem load_damaged_cutOff :
    let store := DirectoryStore.ofCache (.ofText "c")
    ∃ raw, encode store.producer ":app" oneHeader = .ok raw ∧
      decode store.producer (store.snapshotPath ":app") ":app" raw = .ok oneHeader ∧
      ∃ e, decode store.producer (store.snapshotPath ":app") ":app" (raw.take (raw.length - 1)) =
        .error e := by
  -- the store is hidden, so that its path is not computed
  have hproducer : (DirectoryStore.ofCache (.ofText "c")).producer = "0.1.0" := rfl
  generalize DirectoryStore.ofCache (.ofText "c") = store at hproducer
  intro store
  have hfits : SnapshotFile.Fits store.producer ":app" oneHeader := by
    rw [hproducer]
    decide +kernel
  obtain ⟨raw, hraw⟩ := hfits.encodes
  have hdecode : decode store.producer (store.snapshotPath ":app") ":app" raw = .ok oneHeader := by
    have hsome := hfits.decode hraw store.producer (store.snapshotPath ":app")
    rwa [if_pos rfl, Except.toOption_eq_some] at hsome
  obtain ⟨-, hpayload, -, hlength⟩ := parts_of_encode hraw
  have hpositive : 0 < (payloadBytes raw).length := by
    rw [hpayload]
    decide +kernel
  have hfront : (raw.take (raw.length - 1)).take (4 + headerLength raw) =
      raw.take (4 + headerLength raw) := by
    rw [List.take_take, Nat.min_eq_left (by omega)]
  have hshort : payloadBytes (raw.take (raw.length - 1)) =
      (payloadBytes raw).take ((payloadBytes raw).length - 1) := by
    have hcount : raw.length - 1 - (4 + headerLength raw) = (payloadBytes raw).length - 1 := by
      omega
    rw [(parts_of_take_eq hfront).2, List.drop_take, hcount, payloadBytes, List.drop_drop]
  have hother : Digest.ofContent ((Wire.snapshot oneHeader).take
      ((Wire.snapshot oneHeader).length - 1)) ≠ Digest.ofContent (Wire.snapshot oneHeader) := by
    decide +kernel
  have hdigest : NoCollision raw (raw.take (raw.length - 1)) := by
    intro h
    rw [hshort, hpayload] at h
    exact absurd h hother
  have hdamaged : Damaged raw (raw.take (raw.length - 1)) := .cut (by omega)
  exact ⟨raw, hraw, hdecode, ((load_damaged hraw hdecode hdigest).1 hdamaged).1⟩

end DirectoryStore

end Recompile
