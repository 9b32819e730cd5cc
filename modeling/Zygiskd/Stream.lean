import Zygiskd.Bytes

/-!
# Zygiskd.Stream — the framing layer `UnixStreamExt` (`utils.rs`, lines 100-160)

One end of a `UnixStream` as a queue of bytes: writes append, reads take from the front, and
`read_exact` fails with `UnexpectedEof` when too few bytes remain. The target fixes a byte order
`e` and the width `W` of `usize`; a string travels as its byte length, then its bytes.
`vec![0u8; len]` in `read_string` panics past `isize::MAX` and otherwise asks the allocator,
whose answer is the parameter `alloc`: when it cannot give the buffer the process aborts.

* `framing_roundtrip`: values written with `write_*` read back unchanged with the matching
  `read_*`, for every allocator, and a successful `read_string` consumed what `write_string`
  writes for its result.
* `readString_run`: `read_string` on every stream, as `readStringSpec`.
-/

namespace Zygiskd

/-- The errors the framing layer returns: `io::ErrorKind::UnexpectedEof` from `read_exact`, and
the `FromUtf8Error` of `String::from_utf8`. -/
inductive IoError
  | unexpectedEof
  | invalidUtf8
  deriving DecidableEq, Repr

/-- How a call ends when it does not return `Ok`: an `Err` to its caller, a panic, or an abort of
the process by `handle_alloc_error`. -/
inductive Exit
  | err (e : IoError)
  | panic (msg : String)
  | abort
  deriving DecidableEq, Repr

/-- A computation on one end of a `UnixStream`: the state is the bytes in flight, front first. -/
abbrev Io := StateT (List UInt8) (Except Exit)

/-- `Read::read_exact` into a buffer of `n` bytes. -/
def readExact (n : ℕ) : Io { buf : List UInt8 // buf.length = n } := fun s =>
  if h : n ≤ s.length then .ok (⟨s.take n, by simp [h]⟩, s.drop n)
  else .error (.err .unexpectedEof)

def writeAll (bs : List UInt8) : Io Unit := fun s => .ok ((), s ++ bs)

/-- `isize::MAX` on a target whose `usize` has `W` bytes. -/
def isizeMax (W : ℕ) : ℕ := 2 ^ (8 * W - 1) - 1

theorem isizeMax_lt (W : ℕ) : isizeMax W < 256 ^ W := by
  have h : 2 ^ (8 * W - 1) ≤ 2 ^ (8 * W) := Nat.pow_le_pow_right (by decide) (Nat.sub_le _ _)
  have h1 : 0 < 2 ^ (8 * W - 1) := Nat.pos_pow_of_pos _ (by decide)
  rw [isizeMax, ← two_pow_eight_mul]
  omega

/-- Whether `vec![0u8; n]` gets its buffer: an empty `Vec` allocates nothing, a larger one gets
its bytes when the allocator can give them. -/
def allocates (alloc : ℕ → Bool) (n : ℕ) : Bool := n == 0 || alloc n

/-- A Rust `String` of a process whose allocator is `alloc`: UTF-8, at most `isize::MAX` bytes,
in a buffer the allocator gave. -/
structure RString (W : ℕ) (alloc : ℕ → Bool) where
  bytes : List UInt8
  utf8 : utf8Valid bytes = true
  len_le : bytes.length ≤ isizeMax W
  allocated : allocates alloc bytes.length = true
  deriving DecidableEq

def RString.len {W : ℕ} {alloc : ℕ → Bool} (s : RString W alloc) : ℕ := s.bytes.length

theorem RString.len_lt {W : ℕ} {alloc : ℕ → Bool} (s : RString W alloc) : s.len < 256 ^ W :=
  Nat.lt_of_le_of_lt s.len_le (isizeMax_lt W)

section Ops

variable (W : ℕ) (e : Endian) (alloc : ℕ → Bool)

def readU8 : Io UInt8 := do
  let buf ← readExact 1
  return buf.1.headD 0

def readU32 : Io UInt32 := do
  let buf ← readExact 4
  return UInt32.ofNat (fromNeBytes e buf.1)

def readUsize : Io (BitVec (8 * W)) := do
  let buf ← readExact W
  return BitVec.ofNat (8 * W) (fromNeBytes e buf.1)

/-- `read_string`: the length, the buffer `vec![0u8; len]` (a "capacity overflow" panic past
`isize::MAX`, an abort when the allocator cannot give it), `read_exact`, `String::from_utf8`. -/
def readString : Io (RString W alloc) := do
  let len ← readUsize W e
  if hcap : isizeMax W < len.toNat then
    throw (.panic "capacity overflow")
  else if halloc : allocates alloc len.toNat = false then
    throw .abort
  else
    let buf ← readExact len.toNat
    if h : utf8Valid buf.1 then
      return ⟨buf.1, h, by rw [buf.2]; omega, by rw [buf.2]; simpa using halloc⟩
    else
      throw (.err .invalidUtf8)

variable {alloc}

def writeU8 (v : UInt8) : Io Unit := writeAll [v]

def writeU32 (v : UInt32) : Io Unit := writeAll (toNeBytes e 4 v.toNat)

def writeUsize (v : BitVec (8 * W)) : Io Unit := writeAll (toNeBytes e W v.toNat)

/-- `write_string`: `value.len()`, then `value.as_bytes()`. -/
def writeString (s : RString W alloc) : Io Unit := do
  writeUsize W e (BitVec.ofNat (8 * W) s.len)
  writeAll s.bytes

end Ops

/-! ### Running reads and writes -/

section Run

variable {α β : Type} {x : Io α} {f : α → Io β} {s s' : List UInt8} {a : α}

theorem Io.run_bind_ok (h : x.run s = .ok (a, s')) : (x >>= f).run s = (f a).run s' := by
  simp [StateT.run_bind, h]; rfl

theorem Io.run_bind_error {ε : Exit} (h : x.run s = .error ε) : (x >>= f).run s = .error ε := by
  simp [StateT.run_bind, h]; rfl

@[simp] theorem writeAll_run (bs : List UInt8) : (writeAll bs).run s = .ok ((), s ++ bs) := rfl

theorem Io.run_map_ok {g : α → β}
    (h : x.run s = .ok (a, s')) : (g <$> x).run s = .ok (g a, s') := by
  simp [StateT.run_map, h]

theorem readExact_run_of_length {n : ℕ} (bs rest : List UInt8) (h : bs.length = n) :
    (readExact n).run (bs ++ rest) = .ok (⟨bs, h⟩, rest) := by
  subst h; simp [readExact, StateT.run]

theorem readExact_run_short {n : ℕ} (h : s.length < n) :
    (readExact n).run s = .error (.err .unexpectedEof) := by
  simp [readExact, StateT.run, Nat.not_le.mpr h]

end Run

/-! ## `read_string` on every stream -/

section ReadString

variable (W : ℕ) (e : Endian) (alloc : ℕ → Bool)

/-- `read_string` on the stream `st`, spelled out: too few bytes for the prefix, a prefix past
`isize::MAX`, a buffer the allocator cannot give, too few bytes for the body, a body that is not
UTF-8, or the body and the bytes after it. -/
def readStringSpec (st : List UInt8) : Except Exit (List UInt8 × List UInt8) :=
  if st.length < W then .error (.err .unexpectedEof) else
  let len := fromNeBytes e (st.take W)
  if isizeMax W < len then .error (.panic "capacity overflow")
  else if allocates alloc len = false then .error .abort
  else if st.length < W + len then .error (.err .unexpectedEof)
  else if utf8Valid ((st.drop W).take len) then .ok ((st.drop W).take len, st.drop (W + len))
  else .error (.err .invalidUtf8)

theorem readUsize_run {st : List UInt8} (h : W ≤ st.length) :
    (readUsize W e).run st = .ok (BitVec.ofNat (8 * W) (fromNeBytes e (st.take W)), st.drop W) := by
  simp [readUsize, readExact, StateT.run, h, bind, StateT.bind, pure, StateT.pure, Except.bind, Except.pure]

theorem toNat_readUsize (st : List UInt8) (h : W ≤ st.length) :
    (BitVec.ofNat (8 * W) (fromNeBytes e (st.take W))).toNat = fromNeBytes e (st.take W) := by
  rw [BitVec.toNat_ofNat, two_pow_eight_mul]
  apply Nat.mod_eq_of_lt
  have := fromNeBytes_lt e (st.take W)
  rwa [List.length_take, Nat.min_eq_left h] at this

/-- **`read_string` on every stream** is `readStringSpec`. -/
theorem readString_run (st : List UInt8) :
    ((readString W e alloc).run st).map (fun p => (p.1.bytes, p.2)) = readStringSpec W e alloc st := by
  by_cases hW : st.length < W
  · have : (readUsize W e).run st = .error (.err .unexpectedEof) := by
      simp [readUsize, readExact, StateT.run, Nat.not_le.mpr hW, bind, StateT.bind, Except.bind]
    simp [readString, readStringSpec, hW, Io.run_bind_error this, Except.map]
  rw [readString, Io.run_bind_ok (readUsize_run W e (Nat.le_of_not_lt hW))]
  have hlen := toNat_readUsize W e st (Nat.le_of_not_lt hW)
  simp only [readStringSpec, hW, if_false]
  generalize fromNeBytes e (st.take W) = len at hlen ⊢
  by_cases hcap : isizeMax W < len
  · simp only [hlen, hcap, dif_pos, if_pos]; rfl
  simp only [hlen, hcap, dif_neg, if_neg, not_false_eq_true]
  by_cases halloc : allocates alloc len = false
  · simp only [halloc, dif_pos, if_pos]; rfl
  rw [Bool.not_eq_false] at halloc
  simp only [halloc, Bool.true_eq_false, ↓reduceDIte, ↓reduceIte]
  by_cases hshort : st.length < W + len
  · rw [Io.run_bind_error (readExact_run_short (by rw [hlen, List.length_drop]; omega)), if_pos hshort]; rfl
  rw [if_neg hshort]
  have hsplit := List.take_append_drop len (st.drop W)
  have hlen' : ((st.drop W).take len).length = (BitVec.ofNat (8 * W) len).toNat := by
    rw [hlen, List.length_take, List.length_drop]; omega
  rw [← hsplit, Io.run_bind_ok (readExact_run_of_length _ _ hlen')]
  by_cases hv : utf8Valid ((st.drop W).take len)
  · simp [hv]; rfl
  · simp [hv]; rfl

/-- A length prefix of `usize::MAX` on a 64-bit little-endian target: `vec![0u8; len]` panics,
whatever the allocator. -/
theorem readString_usizeMax_panics :
    (readString 8 .little alloc).run (List.replicate 8 0xFF) = .error (.panic "capacity overflow") :=
  rfl

variable {W e alloc}

theorem readString_run_eq_ok {st st' : List UInt8} {s : RString W alloc}
    (h : (readString W e alloc).run st = .ok (s, st')) :
    W ≤ st.length ∧ W + fromNeBytes e (st.take W) ≤ st.length ∧
      s.bytes = (st.drop W).take (fromNeBytes e (st.take W)) ∧
      st' = st.drop (W + fromNeBytes e (st.take W)) := by
  have hrun := readString_run W e alloc st
  rw [h] at hrun
  simp only [readStringSpec] at hrun
  split_ifs at hrun with h1 h2 h3 h4 h5
  · cases hrun
  · cases hrun
  · cases hrun
  · cases hrun
  · simp only [Except.map, Except.ok.injEq, Prod.mk.injEq] at hrun
    exact ⟨by omega, by omega, hrun.1, hrun.2⟩
  · cases hrun

end ReadString

/-! ## The round trip -/

inductive Kind
  | u8
  | u32
  | usize
  | string
  deriving DecidableEq, Repr

/-- A value of one of those kinds, on a target whose `usize` has `W` bytes. -/
inductive Value (W : ℕ) (alloc : ℕ → Bool)
  | u8 (v : UInt8)
  | u32 (v : UInt32)
  | usize (v : BitVec (8 * W))
  | string (s : RString W alloc)
  deriving DecidableEq

def Value.kind {W : ℕ} {alloc : ℕ → Bool} : Value W alloc → Kind
  | .u8 _ => .u8
  | .u32 _ => .u32
  | .usize _ => .usize
  | .string _ => .string

section Values

variable (W : ℕ) (e : Endian) (alloc : ℕ → Bool)

def readValue : Kind → Io (Value W alloc)
  | .u8 => .u8 <$> readU8
  | .u32 => .u32 <$> readU32 e
  | .usize => .usize <$> readUsize W e
  | .string => .string <$> readString W e alloc

def readValues (ks : List Kind) : Io (List (Value W alloc)) := ks.mapM (readValue W e alloc)

variable {alloc}

def writeValue : Value W alloc → Io Unit
  | .u8 v => writeU8 v
  | .u32 v => writeU32 e v
  | .usize v => writeUsize W e v
  | .string s => writeString W e s

def writeValues : List (Value W alloc) → Io Unit
  | [] => pure ()
  | v :: vs => do writeValue W e v; writeValues vs

/-- The bytes `writeValue` appends for a value. -/
def Value.encode : Value W alloc → List UInt8
  | .u8 v => [v]
  | .u32 v => toNeBytes e 4 v.toNat
  | .usize v => toNeBytes e W v.toNat
  | .string s => toNeBytes e W s.len ++ s.bytes

variable {W e}

theorem writeValue_run (v : Value W alloc) (s : List UInt8) :
    (writeValue W e v).run s = .ok ((), s ++ v.encode W e) := by
  cases v with
  | string str =>
    rw [writeValue, writeString, writeUsize, Io.run_bind_ok (writeAll_run _), writeAll_run, Value.encode,
      BitVec.toNat_ofNat, two_pow_eight_mul, Nat.mod_eq_of_lt str.len_lt, List.append_assoc]
  | _ => rfl

theorem readStringSpec_encode (str : RString W alloc) (rest : List UInt8) :
    readStringSpec W e alloc ((toNeBytes e W str.len ++ str.bytes) ++ rest) = .ok (str.bytes, rest) := by
  obtain ⟨b, hu, hle, ha⟩ := str
  have hfrom : fromNeBytes e (toNeBytes e W b.length) = b.length := by
    rw [fromNeBytes_toNeBytes, Nat.mod_eq_of_lt (Nat.lt_of_le_of_lt hle (isizeMax_lt W))]
  have hpre := length_toNeBytes e W b.length
  simp only [RString.len, readStringSpec, List.append_assoc, List.take_left' hpre,
    List.drop_left' hpre, hfrom, List.take_left' rfl, hu, List.length_append, hpre, ha,
    Bool.true_eq_false, if_false]
  rw [if_neg (by omega), if_neg (by omega), if_neg (by omega), if_pos trivial, ← List.drop_drop,
    List.drop_left' hpre, List.drop_left' rfl]

theorem readString_run_encode (str : RString W alloc) (rest : List UInt8) :
    (readString W e alloc).run ((toNeBytes e W str.len ++ str.bytes) ++ rest) = .ok (str, rest) := by
  have h := readString_run W e alloc ((toNeBytes e W str.len ++ str.bytes) ++ rest)
  rw [readStringSpec_encode] at h
  cases hr : (readString W e alloc).run ((toNeBytes e W str.len ++ str.bytes) ++ rest) with
  | error ε => rw [hr] at h; cases h
  | ok p =>
    rw [hr] at h
    obtain ⟨⟨b, hu, hl, ha⟩, r⟩ := p
    simp only [Except.map, Except.ok.injEq, Prod.mk.injEq] at h
    obtain ⟨rfl, rfl⟩ := h
    rfl

theorem readU32_run (v : UInt32) (rest : List UInt8) :
    (readU32 e).run (toNeBytes e 4 v.toNat ++ rest) = .ok (v, rest) := by
  rw [readU32, Io.run_bind_ok (readExact_run_of_length _ rest (length_toNeBytes e 4 _))]
  have hv : v.toNat < 256 ^ 4 := v.toNat_lt_size
  have : UInt32.ofNat (fromNeBytes e (toNeBytes e 4 v.toNat)) = v := by
    rw [fromNeBytes_toNeBytes, Nat.mod_eq_of_lt hv]
    exact UInt32.toNat.inj (UInt32.toNat_ofNat_of_lt hv)
  rw [this]; rfl

theorem readUsize_run_encode (v : BitVec (8 * W)) (rest : List UInt8) :
    (readUsize W e).run (toNeBytes e W v.toNat ++ rest) = .ok (v, rest) := by
  rw [readUsize, Io.run_bind_ok (readExact_run_of_length _ rest (length_toNeBytes e W _))]
  have hv : v.toNat < 256 ^ W := two_pow_eight_mul W ▸ v.isLt
  have : BitVec.ofNat (8 * W) (fromNeBytes e (toNeBytes e W v.toNat)) = v := by
    apply BitVec.eq_of_toNat_eq
    rw [fromNeBytes_toNeBytes, Nat.mod_eq_of_lt hv, BitVec.toNat_ofNat, two_pow_eight_mul,
      Nat.mod_eq_of_lt hv]
  rw [this]; rfl

theorem readValue_run (v : Value W alloc) (rest : List UInt8) :
    (readValue W e alloc v.kind).run (v.encode W e ++ rest) = .ok (v, rest) := by
  cases v with
  | u8 v => exact Io.run_map_ok (Io.run_bind_ok (readExact_run_of_length [v] rest rfl))
  | u32 v => exact Io.run_map_ok (readU32_run v rest)
  | usize v => exact Io.run_map_ok (readUsize_run_encode v rest)
  | string str => exact Io.run_map_ok (readString_run_encode str rest)

theorem writeValues_run (vs : List (Value W alloc)) (s : List UInt8) :
    (writeValues W e vs).run s = .ok ((), s ++ vs.flatMap (Value.encode W e)) := by
  induction vs generalizing s with
  | nil => simp [writeValues]; rfl
  | cons v vs ih =>
    rw [writeValues, Io.run_bind_ok (writeValue_run v s)]
    simpa using ih (s ++ v.encode W e)

theorem readValues_run (vs : List (Value W alloc)) (rest : List UInt8) :
    (readValues W e alloc (vs.map Value.kind)).run (vs.flatMap (Value.encode W e) ++ rest) =
      .ok (vs, rest) := by
  induction vs with
  | nil => rfl
  | cons v vs ih =>
    rw [List.map_cons, readValues, List.mapM_cons, List.flatMap_cons, List.append_assoc,
      Io.run_bind_ok (readValue_run v _)]
    exact Io.run_bind_ok ih

/-- **Framing round trip.** For every allocator, values written with `write_*` and read back with
the matching `read_*` come back unchanged, and the bytes written after them stay unread; the
bytes a successful `read_string` consumed are what `write_string` writes for its result. -/
theorem framing_roundtrip (vs : List (Value W alloc)) (rest : List UInt8) :
    (do writeValues W e vs; writeAll rest; readValues W e alloc (vs.map Value.kind)).run [] =
        .ok (vs, rest) ∧
      ∀ st s st', (readString W e alloc).run st = .ok (s, st') →
        ∃ k, st' = st.drop k ∧ (writeString W e s).run [] = .ok ((), st.take k) := by
  refine ⟨?_, fun st s st' h => ?_⟩
  · rw [Io.run_bind_ok (writeValues_run vs []), Io.run_bind_ok (writeAll_run rest)]
    exact readValues_run vs rest
  · obtain ⟨hW, hlen, hb, rfl⟩ := readString_run_eq_ok h
    refine ⟨W + fromNeBytes e (st.take W), rfl, ?_⟩
    have hs : s.len = fromNeBytes e (st.take W) := by
      rw [RString.len, hb, List.length_take, List.length_drop]; omega
    have hw : (writeValue W e (.string s)).run [] = _ := writeValue_run _ _
    have hpre : toNeBytes e W (fromNeBytes e (st.take W)) = st.take W := by
      simpa [List.length_take_of_le hW] using toNeBytes_fromNeBytes e (st.take W)
    rw [writeValue, Value.encode, hs, hpre] at hw
    rw [hw, hb, List.take_add, List.nil_append]

end Values

end Zygiskd
