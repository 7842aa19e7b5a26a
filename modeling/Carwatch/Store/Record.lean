import Carwatch.Store.Crc32

/-!
# Carwatch.Store.Record — the on-disk record format (`src/store/record.c`)

Every record is a 40-byte little-endian header, a body whose size depends on
its kind, and a CRC-32 of both.

* **Model layer**: `RecHdr` is `rec_hdr_t` with the widths the static
  assertions of `record.h` fix; `recEncode` and `recDecode` make their checks
  in the order the source makes them. A `Rec` carries the fact that its body
  is as long as its header says, which in C is the caller's promise.
* **Format**: `Rec.image` is the layout itself, and `Rec.Acceptable` is what
  encoder and decoder both demand of a header and a body.
  `recEncode_eq_some_iff` and `recDecode_eq_ok_iff` say once what either
  function does; nothing after them unfolds the two.
* **Round trips**: `recDecode_frame_append` and `recEncode_of_recDecode`,
  assembled in `record_round_trips`.
-/

namespace Carwatch.Store

open Carwatch.Lib

/-! ## Constants and kinds -/

/-- `REC_MAGIC`, the bytes `CWR1`. -/
def recMagic : UInt32 := 0x31525743

/-- `REC_HDR_SIZE` -/
abbrev recHdrSize : ℕ := 40

/-- `REC_CRC_SIZE` -/
abbrev recCrcSize : ℕ := 4

/-- `REC_EVENT_TEXT_MAX` -/
abbrev recEventTextMax : ℕ := 200

/-- `REC_MAX_BODY` -/
abbrev recMaxBody : ℕ := 4 + recEventTextMax

/-- `REC_MAX_SIZE` -/
abbrev recMaxSize : ℕ := recHdrSize + recMaxBody + recCrcSize

/-- `rec_kind_t` -/
inductive RecKind where
  | sample
  | begin
  | commit
  | boot
  | shutdown
  | event
deriving DecidableEq, Repr

/-- The value a kind has in the header. -/
def RecKind.code : RecKind → UInt16
  | .sample => 1
  | .begin => 2
  | .commit => 3
  | .boot => 4
  | .shutdown => 5
  | .event => 6

/-- The kind a header value stands for. -/
def RecKind.ofCode (k : UInt16) : Option RecKind :=
  if k = 1 then some .sample
  else if k = 2 then some .begin
  else if k = 3 then some .commit
  else if k = 4 then some .boot
  else if k = 5 then some .shutdown
  else if k = 6 then some .event
  else none

@[simp] theorem RecKind.ofCode_code (k : RecKind) : RecKind.ofCode k.code = some k := by
  cases k <;> rfl

/-- `SRC_IS_VALID`: 1 live, 2 replay, 3 synth. -/
def srcIsValid (s : UInt8) : Bool := 1 ≤ s && s ≤ 3

/-! ## Header and record -/

/-- `rec_hdr_t` -/
structure RecHdr where
  magic : UInt32
  kind : UInt16
  bodyLen : UInt16
  seq : UInt64
  monoNs : UInt64
  wallNs : UInt64
  src : UInt8
  flags : UInt8
  reserved : UInt16
  bootId : UInt32
deriving DecidableEq, Repr

/-- The header as `memcpy` lays it out. -/
def RecHdr.toBytes (h : RecHdr) : Bytes :=
  leBytes 4 h.magic.toNat ++ (leBytes 2 h.kind.toNat ++ (leBytes 2 h.bodyLen.toNat ++
  (leBytes 8 h.seq.toNat ++ (leBytes 8 h.monoNs.toNat ++ (leBytes 8 h.wallNs.toNat ++
  (leBytes 1 h.src.toNat ++ (leBytes 1 h.flags.toNat ++ (leBytes 2 h.reserved.toNat ++
  leBytes 4 h.bootId.toNat))))))))

/-- The header at the front of a buffer, field by field at its offset. -/
def RecHdr.ofBytes (b : Bytes) : RecHdr where
  magic := UInt32.ofNat (field 0 4 b)
  kind := UInt16.ofNat (field 4 2 b)
  bodyLen := UInt16.ofNat (field 6 2 b)
  seq := UInt64.ofNat (field 8 8 b)
  monoNs := UInt64.ofNat (field 16 8 b)
  wallNs := UInt64.ofNat (field 24 8 b)
  src := UInt8.ofNat (field 32 1 b)
  flags := UInt8.ofNat (field 33 1 b)
  reserved := UInt16.ofNat (field 34 2 b)
  bootId := UInt32.ofNat (field 36 4 b)

/-- A header with a body of the length the header states. -/
structure Rec where
  hdr : RecHdr
  body : Bytes
  body_len_eq : body.length = hdr.bodyLen.toNat
deriving DecidableEq, Repr

@[ext] theorem Rec.ext' {r r' : Rec} (hhdr : r.hdr = r'.hdr) (hbody : r.body = r'.body) :
    r = r' := by
  cases r
  cases r'
  simp only at hhdr hbody
  subst hhdr hbody
  rfl

/-- The bytes a record takes on disk. -/
def Rec.size (r : Rec) : ℕ := recHdrSize + r.hdr.bodyLen.toNat + recCrcSize

/-! ## Validity -/

/-- `body_len_ok`: the body size each kind allows; an event's text length is
checked apart. -/
def bodyLenOk (kind bodyLen : UInt16) : Bool :=
  match RecKind.ofCode kind with
  | some .sample => bodyLen == 12
  | some .begin => bodyLen == 8
  | some .commit => bodyLen == 16
  | some .boot => bodyLen == 12
  | some .shutdown => bodyLen == 8
  | some .event => 4 ≤ bodyLen.toNat && bodyLen.toNat ≤ recMaxBody
  | none => false

/-- `kind_ok` -/
def kindOk (kind : UInt16) : Bool := RecKind.sample.code ≤ kind && kind ≤ RecKind.event.code

/-- `event_ok`: an event's len field accounts for exactly the rest of its
body. -/
def eventOk (body : Bytes) (bodyLen : UInt16) : Bool :=
  let textLen := field 2 2 body
  textLen ≤ recEventTextMax && textLen + 4 == bodyLen.toNat

/-! ## Encoder and decoder -/

/-- The record with the fields the encoder sets itself. -/
def Rec.stamped (r : Rec) : Rec :=
  { hdr := { r.hdr with magic := recMagic, reserved := 0 }
    body := r.body
    body_len_eq := r.body_len_eq }

/-- Header and body, the bytes the checksum covers. -/
def Rec.covered (r : Rec) : Bytes := r.hdr.toBytes ++ r.body

/-- A record as it lies on disk: header, body and the CRC of both. -/
def Rec.image (r : Rec) : Bytes := r.covered ++ leBytes recCrcSize (recCrc32 r.covered).toNat

/-- What the encoder writes: the image of the stamped record. -/
def Rec.frame (r : Rec) : Bytes := r.stamped.image

/-- `rec_encode` into a buffer of `cap` bytes; `none` is the return value 0. -/
def recEncode (cap : ℕ) (r : Rec) : Option Bytes :=
  if !kindOk r.hdr.kind || !bodyLenOk r.hdr.kind r.hdr.bodyLen then none
  else if !srcIsValid r.hdr.src then none
  else if r.hdr.kind == RecKind.event.code && !eventOk r.body r.hdr.bodyLen then none
  else if cap < r.size then none
  else some r.frame

/-- `rec_status_t` without `REC_OK`. -/
inductive RecStatus where
  | short
  | badMagic
  | badKind
  | badLen
  | badCrc
  | badSrc
deriving DecidableEq, Repr

/-- `rec_decode`: the record at the front of `buf` and its total size. -/
def recDecode (buf : Bytes) : Except RecStatus (Rec × ℕ) :=
  if buf.length < recHdrSize then .error .short
  else
    let h := RecHdr.ofBytes buf
    if h.magic ≠ recMagic then .error .badMagic
    else if !kindOk h.kind then .error .badKind
    else if !bodyLenOk h.kind h.bodyLen then .error .badLen
    else
      let total := recHdrSize + h.bodyLen.toNat + recCrcSize
      if hlen : buf.length < total then .error .short
      else
        let stored := UInt32.ofNat (field (recHdrSize + h.bodyLen.toNat) recCrcSize buf)
        if recCrc32 (buf.take (recHdrSize + h.bodyLen.toNat)) ≠ stored then .error .badCrc
        else if !srcIsValid h.src then .error .badSrc
        else
          let body := (buf.drop recHdrSize).take h.bodyLen.toNat
          if h.kind == RecKind.event.code && !eventOk body h.bodyLen then .error .badLen
          else .ok (⟨h, body, by simp only [body, List.length_take, List.length_drop]; omega⟩,
            total)

/-! ## Layout lemmas -/

@[simp] theorem RecHdr.length_toBytes (h : RecHdr) : h.toBytes.length = recHdrSize := by
  simp [RecHdr.toBytes]

/-- Reading a header back from its own layout, whatever follows it. -/
theorem RecHdr.ofBytes_toBytes (h : RecHdr) (t : Bytes) :
    RecHdr.ofBytes (h.toBytes ++ t) = h := by
  cases h with
  | mk magic kind bodyLen seq monoNs wallNs src flags reserved bootId =>
      simp [RecHdr.ofBytes, RecHdr.toBytes, List.append_assoc, field_leBytes,
        field_leBytes_skip]

/-- Laying out what was read restores the header bytes. -/
theorem RecHdr.toBytes_ofBytes {b : Bytes} (hb : recHdrSize ≤ b.length) :
    (RecHdr.ofBytes b).toBytes = b.take recHdrSize := by
  have hslice : ∀ off w, off + w ≤ 40 → leBytes w (field off w b % 2 ^ (8 * w)) =
      (b.drop off).take w := by
    intro off w hle
    have hlt : field off w b < 2 ^ (8 * w) := by
      rw [pow_mul]
      exact field_lt
    rw [Nat.mod_eq_of_lt hlt]
    exact leBytes_field (le_trans hle hb)
  simp only [RecHdr.toBytes, RecHdr.ofBytes, UInt8.toNat_ofNat', UInt16.toNat_ofNat',
    UInt32.toNat_ofNat', UInt64.toNat_ofNat']
  rw [hslice 0 4 (by omega), hslice 4 2 (by omega), hslice 6 2 (by omega),
    hslice 8 8 (by omega), hslice 16 8 (by omega), hslice 24 8 (by omega),
    hslice 32 1 (by omega), hslice 33 1 (by omega), hslice 34 2 (by omega),
    hslice 36 4 (by omega)]
  rw [slice_append 34 2 4, slice_append 33 1 6, slice_append 32 1 7, slice_append 24 8 8,
    slice_append 16 8 16, slice_append 8 8 24, slice_append 6 2 32, slice_append 4 2 34,
    slice_append 0 4 36, List.drop_zero]

/-- A header does not look past its own bytes. -/
theorem RecHdr.ofBytes_append {a : Bytes} (ha : recHdrSize ≤ a.length) (b : Bytes) :
    RecHdr.ofBytes (a ++ b) = RecHdr.ofBytes a := by
  have hleft : ∀ off w, off + w ≤ 40 → field off w (a ++ b) = field off w a :=
    fun off w hle => field_append_left b (le_trans hle ha)
  simp only [RecHdr.ofBytes]
  rw [hleft 0 4 (by omega), hleft 4 2 (by omega), hleft 6 2 (by omega), hleft 8 8 (by omega),
    hleft 16 8 (by omega), hleft 24 8 (by omega), hleft 32 1 (by omega), hleft 33 1 (by omega),
    hleft 34 2 (by omega), hleft 36 4 (by omega)]

@[simp] theorem Rec.length_covered (r : Rec) :
    r.covered.length = recHdrSize + r.hdr.bodyLen.toNat := by
  simp [Rec.covered, r.body_len_eq]

@[simp] theorem Rec.length_image (r : Rec) : r.image.length = r.size := by
  simp [Rec.image, Rec.size]

@[simp] theorem Rec.length_frame (r : Rec) : r.frame.length = r.size := by
  rw [Rec.frame, Rec.length_image]
  rfl

@[simp] theorem Rec.size_stamped (r : Rec) : r.stamped.size = r.size := rfl

theorem Rec.size_eq (r : Rec) : r.size = 44 + r.hdr.bodyLen.toNat := by
  simp only [Rec.size, recHdrSize, recCrcSize]
  omega

theorem Rec.size_pos (r : Rec) : 0 < r.size := by
  rw [r.size_eq]
  omega

theorem Rec.stamped_eq_self {r : Rec} (hmagic : r.hdr.magic = recMagic)
    (hres : r.hdr.reserved = 0) : r.stamped = r := by
  cases r with
  | mk hdr body hlen =>
      cases hdr
      simp only at hmagic hres
      simp [Rec.stamped, hmagic, hres]

/-! ## What the encoder and the decoder demand -/

/-- What a header and a body must satisfy to be a record at all. -/
def Rec.Acceptable (r : Rec) : Prop :=
  kindOk r.hdr.kind = true ∧ bodyLenOk r.hdr.kind r.hdr.bodyLen = true ∧
  srcIsValid r.hdr.src = true ∧
  (r.hdr.kind = RecKind.event.code → eventOk r.body r.hdr.bodyLen = true)

instance (r : Rec) : Decidable r.Acceptable :=
  inferInstanceAs (Decidable (_ ∧ _ ∧ _ ∧ _))

@[simp] theorem Rec.acceptable_stamped (r : Rec) : r.stamped.Acceptable ↔ r.Acceptable := Iff.rfl

theorem recEncode_eq_some_iff (cap : ℕ) (r : Rec) (out : Bytes) :
    recEncode cap r = some out ↔ r.Acceptable ∧ r.size ≤ cap ∧ out = r.frame := by
  unfold recEncode
  constructor
  · intro h
    split_ifs at h with hkind hsrc hev hcap
    have hkl : kindOk r.hdr.kind = true ∧ bodyLenOk r.hdr.kind r.hdr.bodyLen = true := by
      simpa using hkind
    refine ⟨⟨hkl.1, hkl.2, by simpa using hsrc, ?_⟩, not_lt.mp hcap, by simpa using h.symm⟩
    intro hk
    simpa [hk] using hev
  · rintro ⟨⟨hkind, hlen, hsrc, hev⟩, hcap, rfl⟩
    have hno : ¬ (r.hdr.kind == RecKind.event.code && !eventOk r.body r.hdr.bodyLen) = true := by
      intro h
      simp only [Bool.and_eq_true, beq_iff_eq, Bool.not_eq_true'] at h
      rw [hev h.1] at h
      exact absurd h.2 (by simp)
    rw [if_neg (by simp [hkind, hlen]), if_neg (by simp [hsrc]), if_neg hno,
      if_neg (not_lt.mpr hcap)]

/-- The image of what was read at the front of a buffer, when the stored
checksum is the right one, is the front of the buffer. -/
theorem image_prefix {buf : Bytes} {r : Rec} (hhdr : r.hdr = RecHdr.ofBytes buf)
    (hbody : r.body = (buf.drop recHdrSize).take r.hdr.bodyLen.toNat)
    (hlen : r.size ≤ buf.length)
    (hcrc : recCrc32 (buf.take (recHdrSize + r.hdr.bodyLen.toNat)) =
      UInt32.ofNat (field (recHdrSize + r.hdr.bodyLen.toNat) recCrcSize buf)) :
    r.image <+: buf := by
  have hsize := r.size_eq
  have hcov : r.covered = buf.take (recHdrSize + r.hdr.bodyLen.toNat) := by
    have hslice := slice_append 0 recHdrSize r.hdr.bodyLen.toNat buf
    rw [Nat.zero_add, List.drop_zero] at hslice
    have hhead : r.hdr.toBytes = buf.take recHdrSize := by
      rw [hhdr]
      exact RecHdr.toBytes_ofBytes (by simp only [recHdrSize]; omega)
    rw [Rec.covered, hhead, hbody, hslice]
  have hstored : leBytes recCrcSize (recCrc32 r.covered).toNat =
      (buf.drop (recHdrSize + r.hdr.bodyLen.toNat)).take recCrcSize := by
    have hfit : (recHdrSize + r.hdr.bodyLen.toNat) + recCrcSize ≤ buf.length := hlen
    have hlt : field (recHdrSize + r.hdr.bodyLen.toNat) recCrcSize buf < 2 ^ 32 := field_lt
    rw [hcov, hcrc, UInt32.toNat_ofNat', Nat.mod_eq_of_lt hlt]
    exact leBytes_field hfit
  rw [Rec.image, hstored, hcov, ← List.take_add]
  exact List.take_prefix _ _

/-- What lies at the front of a buffer that starts with an image. -/
theorem fields_of_image (r : Rec) (t : Bytes) :
    RecHdr.ofBytes (r.image ++ t) = r.hdr ∧
    (r.image ++ t).take (recHdrSize + r.hdr.bodyLen.toNat) = r.covered ∧
    ((r.image ++ t).drop recHdrSize).take r.hdr.bodyLen.toNat = r.body ∧
    UInt32.ofNat (field (recHdrSize + r.hdr.bodyLen.toNat) recCrcSize (r.image ++ t)) =
      recCrc32 r.covered := by
  have himage : r.image ++ t = r.hdr.toBytes ++ (r.body ++
      (leBytes recCrcSize (recCrc32 r.covered).toNat ++ t)) := by
    simp [Rec.image, Rec.covered, List.append_assoc]
  have himage' : r.image ++ t = r.covered ++
      (leBytes recCrcSize (recCrc32 r.covered).toNat ++ t) := by
    simp [Rec.image, List.append_assoc]
  refine ⟨?_, ?_, ?_, ?_⟩
  · rw [himage, RecHdr.ofBytes_toBytes]
  · rw [himage']
    exact List.take_left' r.length_covered
  · rw [himage, List.drop_left' r.hdr.length_toBytes]
    exact List.take_left' r.body_len_eq
  · have hdrop : (r.image ++ t).drop (recHdrSize + r.hdr.bodyLen.toNat) =
        leBytes recCrcSize (recCrc32 r.covered).toNat ++ t := by
      rw [himage']
      exact List.drop_left' r.length_covered
    have htake : (leBytes recCrcSize (recCrc32 r.covered).toNat ++ t).take recCrcSize =
        leBytes recCrcSize (recCrc32 r.covered).toNat :=
      List.take_left' (length_leBytes _ _)
    have hlt : (recCrc32 r.covered).toNat < 256 ^ recCrcSize := (recCrc32 r.covered).toNat_lt
    rw [field, hdrop, htake, leNat_leBytes_of_lt hlt, UInt32.ofNat_toNat]

/-- The decoder accepts exactly the buffers that start with the image of an
acceptable record, and returns that record and its size. -/
theorem recDecode_eq_ok_iff (buf : Bytes) (r : Rec) (n : ℕ) :
    recDecode buf = .ok (r, n) ↔
      r.Acceptable ∧ r.hdr.magic = recMagic ∧ n = r.size ∧ r.image <+: buf := by
  constructor
  · intro h
    unfold recDecode at h
    simp only at h
    split_ifs at h with hshort hmagic hkind hlen htotal hcrc hsrc hev
    simp only [Except.ok.injEq, Prod.mk.injEq] at h
    obtain ⟨rfl, rfl⟩ := h
    refine ⟨⟨by simpa using hkind, by simpa using hlen, by simpa using hsrc, ?_⟩,
      by simpa using hmagic, rfl, ?_⟩
    · intro hk
      have hk' : (RecHdr.ofBytes buf).kind = RecKind.event.code := hk
      simpa [hk'] using hev
    -- the checksum says that the fields are those of the bytes
    · exact image_prefix rfl rfl (not_lt.mp htotal) (not_not.mp hcrc)
  · rintro ⟨⟨hkind, hlen, hsrc, hev⟩, hmagic, rfl, t, rfl⟩
    obtain ⟨hhdr, hcov, hbody, hstored⟩ := fields_of_image r t
    have hsize := r.size_eq
    -- a whole image passes both checks of the length
    have htotal : ¬ (r.image ++ t).length < recHdrSize + r.hdr.bodyLen.toNat + recCrcSize := by
      rw [List.length_append, Rec.length_image]
      simp only [recHdrSize, recCrcSize]
      omega
    have hshort : ¬ (r.image ++ t).length < recHdrSize := by
      simp only [recHdrSize, recCrcSize] at htotal ⊢
      omega
    have hno : ¬ (r.hdr.kind == RecKind.event.code && !eventOk r.body r.hdr.bodyLen) = true := by
      intro h
      simp only [Bool.and_eq_true, beq_iff_eq, Bool.not_eq_true'] at h
      rw [hev h.1] at h
      exact absurd h.2 (by simp)
    unfold recDecode
    rw [if_neg hshort]
    simp only [hhdr, hcov, hbody, hstored]
    rw [if_neg (by simpa using hmagic), if_neg (by simpa using hkind),
      if_neg (by simpa using hlen), dif_neg htotal, if_neg (by simp),
      if_neg (by simpa using hsrc), if_neg hno]
    rfl

/-! ## Consequences for a reader of the log -/

/-- What decodes does so whatever bytes follow. -/
theorem recDecode_append {buf : Bytes} {r : Rec} {n : ℕ} (h : recDecode buf = .ok (r, n))
    (t : Bytes) : recDecode (buf ++ t) = .ok (r, n) := by
  rw [recDecode_eq_ok_iff] at h ⊢
  exact ⟨h.1, h.2.1, h.2.2.1, h.2.2.2.trans (List.prefix_append buf t)⟩

theorem recDecode_size_le {buf : Bytes} {r : Rec} {n : ℕ} (h : recDecode buf = .ok (r, n)) :
    0 < n ∧ n ≤ buf.length := by
  obtain ⟨-, -, rfl, hpre⟩ := (recDecode_eq_ok_iff buf r n).mp h
  have hle := hpre.length_le
  rw [Rec.length_image] at hle
  exact ⟨r.size_pos, hle⟩

/-- A record cut short is refused as short, wherever the cut falls. -/
theorem recDecode_cut {r : Rec} (hr : r.Acceptable) (hmagic : r.hdr.magic = recMagic)
    {p : Bytes} (hp : p <+: r.image) (hlt : p.length < r.size) :
    recDecode p = .error .short := by
  obtain ⟨t, ht⟩ := hp
  unfold recDecode
  by_cases hshort : p.length < recHdrSize
  · rw [if_pos hshort]
  · -- the header is whole, so it names the length that is missing
    have hhdr : RecHdr.ofBytes p = r.hdr := by
      have hfull := (fields_of_image r []).1
      rw [List.append_nil, ← ht, RecHdr.ofBytes_append (not_lt.mp hshort)] at hfull
      exact hfull
    have htotal : p.length < recHdrSize + r.hdr.bodyLen.toNat + recCrcSize := hlt
    rw [if_neg hshort]
    simp only [hhdr]
    rw [if_neg (by simpa using hmagic), if_neg (by simpa using hr.1),
      if_neg (by simpa using hr.2.1), dif_pos htotal]

/-! ## The round trips -/

/-- What the encoder wrote decodes to the stamped record, whatever follows. -/
theorem recDecode_frame_append {r : Rec} (hr : r.Acceptable) (t : Bytes) :
    recDecode (r.frame ++ t) = .ok (r.stamped, r.size) :=
  (recDecode_eq_ok_iff _ _ _).mpr
    ⟨hr, rfl, rfl, List.prefix_append r.frame t⟩

/-- The encoder refuses, room apart, exactly what the decoder would refuse. -/
theorem recEncode_eq_none_iff {cap : ℕ} {r : Rec} (hcap : r.size ≤ cap) :
    recEncode cap r = none ↔ ∃ e, recDecode r.frame = .error e := by
  by_cases hr : r.Acceptable
  · have henc : recEncode cap r = some r.frame :=
      (recEncode_eq_some_iff cap r r.frame).mpr ⟨hr, hcap, rfl⟩
    have hdec := recDecode_frame_append hr []
    rw [List.append_nil] at hdec
    simp [henc, hdec]
  · constructor
    · intro _
      cases hdec : recDecode r.frame with
      | error e => exact ⟨e, rfl⟩
      | ok p =>
          obtain ⟨hacc, -, -, hpre⟩ := (recDecode_eq_ok_iff _ p.1 p.2).mp hdec
          -- the frame starts with one image only, so it is the stamped record that decodes
          have hhdr : p.1.hdr = r.stamped.hdr := by
            obtain ⟨t, ht⟩ := hpre
            have h1 := (fields_of_image p.1 t).1
            have h2 := (fields_of_image r.stamped []).1
            rw [ht] at h1
            rw [List.append_nil] at h2
            exact h1.symm.trans h2
          have hbody : p.1.body = r.body := by
            obtain ⟨t, ht⟩ := hpre
            have h1 := (fields_of_image p.1 t).2.2.1
            have h2 := (fields_of_image r.stamped []).2.2.1
            rw [ht, hhdr] at h1
            rw [List.append_nil] at h2
            exact h1.symm.trans h2
          have hsame : p.1 = r.stamped := Rec.ext' hhdr hbody
          rw [hsame] at hacc
          exact absurd hacc hr
    · intro _
      cases henc : recEncode cap r with
      | none => rfl
      | some out => exact absurd ((recEncode_eq_some_iff cap r out).mp henc).1 hr

/-- Re-encoding what was decoded gives back the bytes it was decoded from. -/
theorem recEncode_of_recDecode {buf : Bytes} {r : Rec} {n cap : ℕ}
    (h : recDecode buf = .ok (r, n)) (hres : r.hdr.reserved = 0) (hcap : n ≤ cap) :
    recEncode cap r = some (buf.take n) := by
  obtain ⟨hr, hmagic, rfl, hpre⟩ := (recDecode_eq_ok_iff buf r n).mp h
  have himage : buf.take r.size = r.image := by
    rw [← Rec.length_image]
    exact (List.prefix_iff_eq_take.mp hpre).symm
  rw [recEncode_eq_some_iff, himage, Rec.frame, Rec.stamped_eq_self hmagic hres]
  exact ⟨hr, hcap, rfl⟩

/-- The record format round-trips in both directions. -/
theorem record_round_trips (cap : ℕ) (r : Rec) (buf : Bytes) :
    (∀ out, recEncode cap r = some out → 0 < out.length ∧ ∀ tail, ∃ r' : Rec,
      recDecode (out ++ tail) = .ok (r', out.length) ∧ r'.body = r.body ∧
      r'.hdr = { r.hdr with magic := recMagic, reserved := 0 }) ∧
    (r.size ≤ cap → (recEncode cap r = none ↔ ∃ e, recDecode r.frame = .error e)) ∧
    (∀ n, recDecode buf = .ok (r, n) → r.hdr.reserved = 0 → n ≤ cap →
      recEncode cap r = some (buf.take n)) := by
  refine ⟨?_, recEncode_eq_none_iff, fun n h hres hcap => recEncode_of_recDecode h hres hcap⟩
  intro out hout
  obtain ⟨hr, -, rfl⟩ := (recEncode_eq_some_iff cap r out).mp hout
  rw [Rec.length_frame]
  exact ⟨r.size_pos, fun tail => ⟨r.stamped, recDecode_frame_append hr tail, rfl, rfl⟩⟩

/-- A BEGIN record of transaction 7, for the instances below. -/
def beginSeven : Rec where
  hdr := { magic := 0, kind := 2, bodyLen := 8, seq := 5, monoNs := 1, wallNs := 2, src := 3,
           flags := 0, reserved := 9, bootId := 1 }
  body := [7, 0, 0, 0, 0, 0, 0, 0]
  body_len_eq := rfl

/-- The round trip of one record into a buffer it just fits. -/
theorem record_round_trips_begin :
    recEncode 52 beginSeven = some beginSeven.frame ∧
    ∃ r', recDecode (beginSeven.frame ++ [1, 2, 3]) = .ok (r', 52) ∧ r'.hdr.reserved = 0 := by
  have henc : recEncode 52 beginSeven = some beginSeven.frame := by decide +kernel
  obtain ⟨r', hdec, -, hhdr⟩ := ((record_round_trips 52 beginSeven []).1 _ henc).2 [1, 2, 3]
  rw [Rec.length_frame] at hdec
  exact ⟨henc, r', hdec, by rw [hhdr]⟩

end Carwatch.Store
