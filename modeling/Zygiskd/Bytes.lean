import Mathlib

/-!
# Zygiskd.Bytes — byte orders and UTF-8, as the Rust standard library has them

What `utils.rs` and `mount.rs` use of `std`: `to_ne_bytes` and `from_ne_bytes`, with their
round-trip laws; the UTF-8 check of `String::from_utf8` (`utf8Valid`), the well-formed sequences
of Unicode Table 3-7 read one byte at a time; string literals as bytes (`lit`); `CString::new`;
and `String::from_utf8_lossy`, which by `fromUtf8Lossy_spec` always yields UTF-8 and gives back
exactly the inputs that are UTF-8.
-/

namespace Zygiskd

/-! ## Byte orders -/

/-- The target's byte order, the `ne` of `to_ne_bytes`. -/
inductive Endian
  | little
  | big
  deriving DecidableEq, Repr

/-- The `n` little-endian bytes of `v`; bits above `8 * n` are dropped. -/
def leBytes : ℕ → ℕ → List UInt8
  | 0, _ => []
  | n + 1, v => UInt8.ofNat (v % 256) :: leBytes n (v / 256)

/-- The number with the given little-endian bytes. -/
def leValue : List UInt8 → ℕ
  | [] => 0
  | b :: bs => b.toNat + 256 * leValue bs

def toNeBytes : Endian → ℕ → ℕ → List UInt8
  | .little, n, v => leBytes n v
  | .big, n, v => (leBytes n v).reverse

def fromNeBytes : Endian → List UInt8 → ℕ
  | .little, bs => leValue bs
  | .big, bs => leValue bs.reverse

@[simp] theorem length_leBytes (n v : ℕ) : (leBytes n v).length = n := by
  induction n generalizing v with
  | zero => rfl
  | succ n ih => simp [leBytes, ih]

theorem leValue_leBytes (n v : ℕ) : leValue (leBytes n v) = v % 256 ^ n := by
  induction n generalizing v with
  | zero => simp [leBytes, leValue, Nat.mod_one]
  | succ n ih =>
    have hb : (UInt8.ofNat (v % 256)).toNat = v % 256 :=
      UInt8.toNat_ofNat_of_lt (Nat.mod_lt _ (by decide))
    rw [leBytes, leValue, ih, hb, Nat.pow_succ', Nat.mod_mul]

theorem leBytes_leValue (bs : List UInt8) : leBytes bs.length (leValue bs) = bs := by
  induction bs with
  | nil => rfl
  | cons b bs ih =>
    have hb : b.toNat < 256 := b.toNat_lt_size
    have hmod : (b.toNat + 256 * leValue bs) % 256 = b.toNat := by omega
    have hdiv : (b.toNat + 256 * leValue bs) / 256 = leValue bs := by omega
    have hofNat : UInt8.ofNat b.toNat = b := UInt8.toNat.inj (UInt8.toNat_ofNat_of_lt hb)
    simp only [List.length_cons, leBytes, leValue, hmod, hdiv, hofNat, ih]

theorem leValue_lt (bs : List UInt8) : leValue bs < 256 ^ bs.length := by
  induction bs with
  | nil => simp [leValue]
  | cons b bs ih =>
    have hb : b.toNat < 256 := b.toNat_lt_size
    rw [leValue, List.length_cons, Nat.pow_succ]
    omega

@[simp] theorem length_toNeBytes (e : Endian) (n v : ℕ) : (toNeBytes e n v).length = n := by
  cases e <;> simp [toNeBytes]

theorem fromNeBytes_toNeBytes (e : Endian) (n v : ℕ) :
    fromNeBytes e (toNeBytes e n v) = v % 256 ^ n := by
  cases e <;> simp [toNeBytes, fromNeBytes, leValue_leBytes]

theorem toNeBytes_fromNeBytes (e : Endian) (bs : List UInt8) :
    toNeBytes e bs.length (fromNeBytes e bs) = bs := by
  cases e with
  | little => exact leBytes_leValue bs
  | big => simpa [toNeBytes, fromNeBytes] using congrArg List.reverse (leBytes_leValue bs.reverse)

theorem fromNeBytes_lt (e : Endian) (bs : List UInt8) : fromNeBytes e bs < 256 ^ bs.length := by
  cases e with
  | little => exact leValue_lt bs
  | big => simpa using leValue_lt bs.reverse

/-- `256 ^ n`, the bound of an `n`-byte integer, as the bound of a `8 * n`-bit vector. -/
theorem two_pow_eight_mul (n : ℕ) : 2 ^ (8 * n) = 256 ^ n := by
  rw [Nat.pow_mul]

/-! ## UTF-8 -/

/-- The lead byte `a` of a UTF-8 sequence: how many continuation bytes follow it, and the range
of the first of them (Unicode Table 3-7; the others lie in `0x80..=0xBF`). `none` when no
sequence starts with `a`: a continuation byte, `0xC0`, `0xC1`, or `0xF5` and above. -/
def utf8Lead (a : UInt8) : Option (ℕ × UInt8 × UInt8) :=
  if a ≤ 0x7F then some (0, 0x80, 0xBF)
  else if 0xC2 ≤ a ∧ a ≤ 0xDF then some (1, 0x80, 0xBF)
  else if a = 0xE0 then some (2, 0xA0, 0xBF)
  else if a = 0xED then some (2, 0x80, 0x9F)
  else if 0xE1 ≤ a ∧ a ≤ 0xEF then some (2, 0x80, 0xBF)
  else if a = 0xF0 then some (3, 0x90, 0xBF)
  else if 0xF1 ≤ a ∧ a ≤ 0xF3 then some (3, 0x80, 0xBF)
  else if a = 0xF4 then some (3, 0x80, 0x8F)
  else none

/-- The check from a point where `n` continuation bytes are still owed, the next in `lo..=hi`. -/
def utf8Go : ℕ → UInt8 → UInt8 → List UInt8 → Bool
  | 0, _, _, [] => true
  | 0, _, _, a :: bs =>
    match utf8Lead a with
    | some (n, lo, hi) => utf8Go n lo hi bs
    | none => false
  | _ + 1, _, _, [] => false
  | n + 1, lo, hi, b :: bs => lo ≤ b && b ≤ hi && utf8Go n 0x80 0xBF bs

/-- The check of `core::str::from_utf8`: the bytes are a sequence of well-formed UTF-8
characters, with no overlong form, no surrogate and nothing above U+10FFFF. -/
def utf8Valid (bs : List UInt8) : Bool := utf8Go 0 0x80 0xBF bs

/-- A string literal of the source, as the UTF-8 bytes the compiler stores. -/
def lit (s : String) : List UInt8 := s.toList.flatMap String.utf8EncodeChar

def cstringNew (s : List UInt8) : Option (List UInt8) := if 0 ∈ s then none else some s

example : utf8Valid (lit "/data/adb/modules") = true := by decide
example : utf8Valid [0xED, 0xA0, 0x80] = false := by decide

/-- From a point where `n` continuation bytes are owed, the next in `lo..=hi`, the check reads a
lead byte as the check from the start does. -/
theorem utf8Go_zero (lo hi : UInt8) (bs : List UInt8) : utf8Go 0 lo hi bs = utf8Valid bs := by
  cases bs <;> rfl

/-! ## Lossy decoding -/

/-- U+FFFD in UTF-8. -/
def replacementChar : List UInt8 := [0xEF, 0xBF, 0xBD]

/-- A byte read where a character starts: the bytes written at once, and the state after it
(the continuation bytes owed, the range of the next, the bytes of the character begun). -/
def lossyLead (a : UInt8) : List UInt8 × ℕ × UInt8 × UInt8 × List UInt8 :=
  match utf8Lead a with
  | some (0, _, _) => ([a], 0, 0x80, 0xBF, [])
  | some (n + 1, lo, hi) => ([], n + 1, lo, hi, [a])
  | none => (replacementChar, 0, 0x80, 0xBF, [])

/-- `String::from_utf8_lossy` from a point where `n` continuation bytes are owed, the next in
`lo..=hi`, after the bytes `p` of the character begun. As `core::str::lossy::Utf8Chunks` splits
the input, the longest prefix of a character that the next byte cannot extend becomes one U+FFFD,
and that byte is read again where a character starts. -/
def lossyGo : ℕ → UInt8 → UInt8 → List UInt8 → List UInt8 → List UInt8
  | 0, _, _, _, [] => []
  | _ + 1, _, _, _, [] => replacementChar
  | 0, _, _, _, a :: bs =>
    let (out, n, lo, hi, p) := lossyLead a
    out ++ lossyGo n lo hi p bs
  | n + 1, lo, hi, p, b :: bs =>
    if lo ≤ b ∧ b ≤ hi then
      if n = 0 then p ++ b :: lossyGo 0 0x80 0xBF [] bs
      else lossyGo n 0x80 0xBF (p ++ [b]) bs
    else
      let (out, n, lo, hi, p) := lossyLead b
      replacementChar ++ out ++ lossyGo n lo hi p bs

def fromUtf8Lossy (bs : List UInt8) : List UInt8 := lossyGo 0 0x80 0xBF [] bs

/-- `p` begins a character that `n` more bytes complete, the first in `lo..=hi`: whatever
follows, the bytes from `p` on are UTF-8 as the check from that state says. -/
def Begun (n : ℕ) (lo hi : UInt8) (p : List UInt8) : Prop :=
  ∀ rest, utf8Valid (p ++ rest) = utf8Go n lo hi rest

theorem begun_nil (lo hi : UInt8) : Begun 0 lo hi [] := fun rest => (utf8Go_zero lo hi rest).symm

theorem utf8Valid_replacementChar_append (rest : List UInt8) :
    utf8Valid (replacementChar ++ rest) = utf8Valid rest :=
  utf8Go_zero 0x80 0xBF rest

/-- What a lead byte writes is whole characters, and what it begins is `Begun`. -/
theorem lossyLead_spec (a : UInt8) :
    (∀ rest, utf8Valid ((lossyLead a).1 ++ rest) = utf8Valid rest) ∧
      Begun (lossyLead a).2.1 (lossyLead a).2.2.1 (lossyLead a).2.2.2.1 (lossyLead a).2.2.2.2 := by
  unfold lossyLead
  split
  · next lo hi h =>
    refine ⟨fun rest => ?_, begun_nil _ _⟩
    show utf8Go 0 0x80 0xBF (a :: rest) = _
    simp only [utf8Go, h, utf8Go_zero]
  · next n lo hi h =>
    refine ⟨fun _ => rfl, fun rest => ?_⟩
    show utf8Go 0 0x80 0xBF (a :: rest) = _
    simp only [utf8Go, h]
  · exact ⟨utf8Valid_replacementChar_append, begun_nil _ _⟩

theorem utf8Valid_lossyGo (bs : List UInt8) :
    ∀ n lo hi p, Begun n lo hi p → utf8Valid (lossyGo n lo hi p bs) = true := by
  induction bs with
  | nil => rintro (_ | n) _ _ _ _ <;> rfl
  | cons b bs ih =>
    rintro (_ | n) lo hi p hp
    · obtain ⟨hout, hbeg⟩ := lossyLead_spec b
      simp only [lossyGo]
      rw [hout]
      exact ih _ _ _ _ hbeg
    · simp only [lossyGo]
      split_ifs with hb hn
      · subst hn
        have hstep := hp (b :: lossyGo 0 0x80 0xBF [] bs)
        simp only [utf8Go, decide_eq_true hb.1, decide_eq_true hb.2, Bool.true_and, utf8Go_zero]
          at hstep
        rw [hstep]
        exact ih _ _ _ _ (begun_nil _ _)
      · obtain ⟨m, rfl⟩ := Nat.exists_eq_succ_of_ne_zero hn
        refine ih _ _ _ _ fun rest => ?_
        rw [List.append_assoc, List.singleton_append, hp (b :: rest)]
        simp only [utf8Go, decide_eq_true hb.1, decide_eq_true hb.2, Bool.true_and]
      · obtain ⟨hout, hbeg⟩ := lossyLead_spec b
        rw [List.append_assoc, utf8Valid_replacementChar_append, hout]
        exact ih _ _ _ _ hbeg

theorem lossyGo_of_utf8Go (bs : List UInt8) :
    ∀ n lo hi p, utf8Go n lo hi bs = true → (n = 0 → p = []) → lossyGo n lo hi p bs = p ++ bs := by
  induction bs with
  | nil =>
    rintro (_ | n) _ _ p h hp
    · simp [lossyGo, hp rfl]
    · simp [utf8Go] at h
  | cons b bs ih =>
    rintro (_ | n) lo hi p h hp
    · obtain rfl := hp rfl
      simp only [utf8Go] at h
      simp only [lossyGo, lossyLead]
      split at h
      · next m lo' hi' hl =>
        cases m with
        | zero =>
          rw [utf8Go_zero, ← utf8Go_zero 0x80 0xBF] at h
          simp only [hl, List.singleton_append, ih _ _ _ _ h fun _ => rfl, List.nil_append]
        | succ m => simp only [hl, ih _ _ _ _ h nofun, List.nil_append, List.singleton_append]
      · cases h
    · simp only [utf8Go, Bool.and_eq_true, decide_eq_true_eq] at h
      obtain ⟨⟨hlo, hhi⟩, h⟩ := h
      simp only [lossyGo, hlo, hhi, and_self, if_true]
      split_ifs with hn
      · subst hn
        rw [ih _ _ _ _ (by rwa [utf8Go_zero] at h ⊢) fun _ => rfl]
        simp
      · rw [ih _ _ _ _ h fun h0 => absurd h0 hn]
        simp

/-- **Lossy decoding.** `String::from_utf8_lossy` always yields UTF-8, and it gives back its input
exactly when the input is UTF-8. -/
theorem fromUtf8Lossy_spec (bs : List UInt8) :
    utf8Valid (fromUtf8Lossy bs) = true ∧ (fromUtf8Lossy bs = bs ↔ utf8Valid bs = true) := by
  have hvalid := utf8Valid_lossyGo bs 0 0x80 0xBF [] (begun_nil _ _)
  refine ⟨hvalid, fun h => h ▸ hvalid, fun h => ?_⟩
  simpa using lossyGo_of_utf8Go bs 0 0x80 0xBF [] h fun _ => rfl

example : fromUtf8Lossy [0x61, 0xE2, 0x82, 0x62] = [0x61, 0xEF, 0xBF, 0xBD, 0x62] := by decide

end Zygiskd
