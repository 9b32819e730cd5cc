import Mathlib

/-!
# Zygiskd.Cli — the command line (`main.rs`, lines 94-122 and 135-142)

`start` picks the binary's mode from its arguments: `companion <fd>`, `version`, `root`, or the
daemon. The fd is read with `str::parse::<i32>` (`companion::entry` takes a `RawFd`), that is
`i32::from_str_radix(src, 10)`: an optional sign, then decimal digits accumulated with checked
arithmetic (`foldlM_parseStep`). `fromStr_ok_iff` says what it accepts, `start_companion_iff`
when the companion starts, and `processName_spec` what `main` names its logger.
-/

namespace Zygiskd

/-! ## `i32::from_str` -/

def InI32 (x : ℤ) : Prop := -2 ^ 31 ≤ x ∧ x ≤ 2 ^ 31 - 1

instance : DecidablePred InI32 := fun _ => inferInstanceAs (Decidable (_ ∧ _))

inductive IntErrorKind
  | empty
  | invalidDigit
  | posOverflow
  | negOverflow
  deriving DecidableEq, Repr

def toDigit (c : Char) : Option ℕ :=
  if '0' ≤ c ∧ c ≤ '9' then some (c.toNat - '0'.toNat) else none

/-- One turn of the digit loop: `checked_mul(10)`, then `checked_add` of the digit for a positive
number and `checked_sub` for a negative one; a non-digit is reported before an overflow. -/
def parseStep (positive : Bool) (acc : ℤ) (c : Char) : Except IntErrorKind ℤ :=
  match toDigit c with
  | none => .error .invalidDigit
  | some d =>
    let next := if positive then acc * 10 + d else acc * 10 - d
    if InI32 (acc * 10) ∧ InI32 next then .ok next
    else .error (if positive then .posOverflow else .negOverflow)

/-- `i32::from_str`, on the characters of `src`: the bytes of a character that is not ASCII are
neither a sign nor a digit, so reading characters gives what reading bytes gives. -/
def fromStr : List Char → Except IntErrorKind ℤ
  | [] => .error .empty
  | c :: digits =>
    if (c = '+' ∨ c = '-') ∧ digits = [] then .error .invalidDigit
    else if c = '+' then digits.foldlM (parseStep true) 0
    else if c = '-' then digits.foldlM (parseStep false) 0
    else (c :: digits).foldlM (parseStep true) 0

/-- The value of the decimal digits `l` read after `a`, with no bound on the result. -/
def valueFrom (a : ℕ) (l : List Char) : ℕ := l.foldl (fun acc c => acc * 10 + (toDigit c).getD 0) a

def signed (positive : Bool) (x : ℕ) : ℤ := if positive then x else -x

theorem le_valueFrom (a : ℕ) (l : List Char) : a ≤ valueFrom a l := by
  induction l generalizing a with
  | nil => exact le_refl a
  | cons c l ih => exact (Nat.le_mul_of_pos_right a (by decide)).trans ((Nat.le_add_right _ _).trans (ih _))

theorem inI32_signed {positive : Bool} {x : ℕ} :
    InI32 (signed positive x) ↔ x ≤ if positive then 2 ^ 31 - 1 else 2 ^ 31 := by
  cases positive <;> simp only [InI32, signed, if_true, if_false, Bool.false_eq_true] <;> omega

theorem signed_step (positive : Bool) (a d : ℕ) :
    signed positive a * 10 = signed positive (a * 10) ∧
      (if positive then signed positive (a * 10) + d else signed positive (a * 10) - d) =
        signed positive (a * 10 + d) := by
  cases positive <;> simp only [signed, if_true, if_false, Bool.false_eq_true] <;> push_cast <;>
    constructor <;> ring

/-- **The checked loop computes the exact value.** Over decimal digits, the loop of
`from_str_radix` from an `i32` of magnitude `a` returns the value of the digits when it is an
`i32`, and the overflow of its sign when it is not. -/
theorem foldlM_parseStep (positive : Bool) (l : List Char) (hl : ∀ c ∈ l, (toDigit c).isSome)
    (a : ℕ) (ha : InI32 (signed positive a)) :
    l.foldlM (parseStep positive) (signed positive a) =
      if InI32 (signed positive (valueFrom a l)) then .ok (signed positive (valueFrom a l))
      else .error (if positive then .posOverflow else .negOverflow) := by
  induction l generalizing a with
  | nil => simp only [List.foldlM_nil, valueFrom, List.foldl_nil, if_pos ha]; rfl
  | cons c l ih =>
    obtain ⟨d, hd⟩ := Option.isSome_iff_exists.mp (hl c (List.mem_cons_self c l))
    have hval : valueFrom a (c :: l) = valueFrom (a * 10 + d) l := by simp [valueFrom, hd]
    obtain ⟨hmul, hnext⟩ := signed_step positive a d
    rw [List.foldlM_cons, hval]
    simp only [parseStep, hd, hmul, hnext]
    by_cases hov : InI32 (signed positive (a * 10)) ∧ InI32 (signed positive (a * 10 + d))
    · rw [if_pos hov]
      exact ih (fun c hc => hl c (List.mem_cons_of_mem _ hc)) _ hov.2
    · have hle := le_valueFrom (a * 10 + d) l
      have hout : ¬InI32 (signed positive (valueFrom (a * 10 + d) l)) := by
        simp only [inI32_signed] at hov ⊢
        generalize (if positive then 2 ^ 31 - 1 else 2 ^ 31) = B at hov ⊢
        omega
      rw [if_neg hov, if_neg hout]
      rfl

/-! ## What `from_str` accepts -/

theorem fromStr_of_digit {c : Char} {cs : List Char} (hc : (toDigit c).isSome) :
    fromStr (c :: cs) = (c :: cs).foldlM (parseStep true) 0 := by
  have h1 : c ≠ '+' := by rintro rfl; exact absurd hc (by decide)
  have h2 : c ≠ '-' := by rintro rfl; exact absurd hc (by decide)
  simp [fromStr, h1, h2]

theorem fromStr_minus {cs : List Char} (hcs : cs ≠ []) :
    fromStr ('-' :: cs) = cs.foldlM (parseStep false) 0 := by
  simp [fromStr, hcs]

/-- A digit loop that returns `Ok` ran over digits only: a non-digit makes it fail. -/
theorem digits_of_foldlM_ok {positive : Bool} {l : List Char} {a v : ℤ}
    (h : l.foldlM (parseStep positive) a = .ok v) : ∀ c ∈ l, (toDigit c).isSome := by
  induction l generalizing a with
  | nil => nofun
  | cons c l ih =>
    rw [List.foldlM_cons] at h
    cases hs : parseStep positive a c with
    | error e => rw [hs] at h; cases h
    | ok a' =>
      rw [hs] at h
      intro x hx
      rcases List.mem_cons.mp hx with rfl | hx
      · cases hd : toDigit x with
        | none => simp [parseStep, hd] at hs
        | some d => rfl
      · exact ih h x hx

theorem foldlM_parseStep_zero (positive : Bool) {l : List Char} (hl : ∀ c ∈ l, (toDigit c).isSome) :
    l.foldlM (parseStep positive) 0 =
      if InI32 (signed positive (valueFrom 0 l)) then .ok (signed positive (valueFrom 0 l))
      else .error (if positive then .posOverflow else .negOverflow) := by
  have h := foldlM_parseStep positive l hl 0 (inI32_signed.mpr (Nat.zero_le _))
  rwa [show signed positive 0 = 0 by cases positive <;> rfl] at h

theorem fromStr_plus {cs : List Char} (hcs : cs ≠ []) :
    fromStr ('+' :: cs) = cs.foldlM (parseStep true) 0 := by
  simp [fromStr, hcs]

theorem foldlM_parseStep_ok_iff (positive : Bool) (l : List Char) (v : ℤ) :
    l.foldlM (parseStep positive) 0 = .ok v ↔ (∀ c ∈ l, (toDigit c).isSome) ∧
      InI32 (signed positive (valueFrom 0 l)) ∧ v = signed positive (valueFrom 0 l) := by
  refine ⟨fun h => ?_, fun ⟨hl, hin, hv⟩ => by rw [foldlM_parseStep_zero positive hl, if_pos hin, hv]⟩
  have hl := digits_of_foldlM_ok h
  rw [foldlM_parseStep_zero positive hl] at h
  split_ifs at h with hin
  · cases h
    exact ⟨hl, hin, rfl⟩

/-- **What `i32::from_str` accepts.** It returns `Ok v` exactly on an optional sign followed by one
or more decimal digits whose value, with the sign, is the `i32` `v`. -/
theorem fromStr_ok_iff (cs : List Char) (v : ℤ) :
    fromStr cs = .ok v ↔ ∃ positive ds, ds ≠ [] ∧ (∀ c ∈ ds, (toDigit c).isSome) ∧
      (cs = ds ∧ positive = true ∨ cs = '+' :: ds ∧ positive = true ∨
        cs = '-' :: ds ∧ positive = false) ∧
      InI32 (signed positive (valueFrom 0 ds)) ∧ v = signed positive (valueFrom 0 ds) := by
  constructor
  · intro h
    match cs, h with
    | c :: ds, h =>
      by_cases hsign : (c = '+' ∨ c = '-') ∧ ds = []
      · rw [fromStr, if_pos hsign] at h; cases h
      by_cases hp : c = '+'
      · subst hp
        have hds : ds ≠ [] := fun e => hsign ⟨.inl rfl, e⟩
        obtain ⟨hl, hin, hv⟩ := (foldlM_parseStep_ok_iff true ds v).mp (fromStr_plus hds ▸ h)
        exact ⟨true, ds, hds, hl, .inr (.inl ⟨rfl, rfl⟩), hin, hv⟩
      by_cases hm : c = '-'
      · subst hm
        have hds : ds ≠ [] := fun e => hsign ⟨.inr rfl, e⟩
        obtain ⟨hl, hin, hv⟩ := (foldlM_parseStep_ok_iff false ds v).mp (fromStr_minus hds ▸ h)
        exact ⟨false, ds, hds, hl, .inr (.inr ⟨rfl, rfl⟩), hin, hv⟩
      rw [fromStr, if_neg hsign, if_neg hp, if_neg hm] at h
      obtain ⟨hl, hin, hv⟩ := (foldlM_parseStep_ok_iff true _ v).mp h
      exact ⟨true, c :: ds, List.cons_ne_nil _ _, hl, .inl ⟨rfl, rfl⟩, hin, hv⟩
  · rintro ⟨positive, ds, hds, hl, hcs, hin, hv⟩
    have hloop := (foldlM_parseStep_ok_iff positive ds v).mpr ⟨hl, hin, hv⟩
    rcases hcs with ⟨rfl, rfl⟩ | ⟨rfl, rfl⟩ | ⟨rfl, rfl⟩
    · obtain ⟨c, cs, rfl⟩ := List.exists_cons_of_ne_nil hds
      rw [fromStr_of_digit (hl c (List.mem_cons_self c cs)), hloop]
    · rw [fromStr_plus hds, hloop]
    · rw [fromStr_minus hds, hloop]

/-! ## `start` -/

/-- What `start` goes on to do: `companion::entry(fd)`, log an error or print a text and return,
`root_impl::setup()` and print what it detected, or `main_daemon_entry()`. -/
inductive Mode
  | companion (fd : ℤ)
  | logError (msg : String)
  | print (text : String)
  | detectRoot
  | daemon
  deriving DecidableEq, Repr

/-- `start`, `ZKSU_VERSION` being `version`. -/
def start (version : String) (args : List String) : Mode :=
  match args[1]? with
  | some "companion" =>
    match args[2]? with
    | some fdStr =>
      match fromStr fdStr.toList with
      | .ok fd => .companion fd
      | .error _ => .logError "Companion: Invalid file descriptor provided."
    | none => .logError "Companion: Missing file descriptor argument."
  | some "version" => .print ("NeoZygisk daemon " ++ version)
  | some "root" => .detectRoot
  | _ => .daemon

theorem start_eq_companion_iff (version : String) (args : List String) (fd : ℤ) :
    start version args = .companion fd ↔
      args[1]? = some "companion" ∧ ∃ s, args[2]? = some s ∧ fromStr s.toList = .ok fd := by
  unfold start
  split
  · split
    · split <;> simp_all
    · next _ h2 => simp [h2]
  all_goals simp_all

/-- **What starts the companion.** `start` calls `companion::entry(fd)` exactly when the second
argument is `companion` and the third is one that `from_str` reads as `fd`. -/
theorem start_companion_iff (version : String) (args : List String) (fd : ℤ) :
    start version args = .companion fd ↔ args[1]? = some "companion" ∧
      ∃ s, args[2]? = some s ∧ ∃ positive ds, ds ≠ [] ∧ (∀ c ∈ ds, (toDigit c).isSome) ∧
        (s.toList = ds ∧ positive = true ∨ s.toList = '+' :: ds ∧ positive = true ∨
          s.toList = '-' :: ds ∧ positive = false) ∧
        InI32 (signed positive (valueFrom 0 ds)) ∧ fd = signed positive (valueFrom 0 ds) := by
  rw [start_eq_companion_iff]
  simp only [fromStr_ok_iff]

/-- A sign and leading zeros are accepted; a value past `i32::MAX` is not. -/
example : start "v1" ["zygiskd64", "companion", "+007"] = .companion 7 ∧
    start "v1" ["zygiskd64", "companion", "2147483648"] =
      .logError "Companion: Invalid file descriptor provided." := by
  decide

/-! ## The log tag of `main` -/

/-- `main` (lines 135-142): the tag of the logger, `arg0.split('/').last().unwrap_or("zygiskd")`,
where `arg0` is the first argument, or `""` when there is none. -/
def processName (args : List String) : String :=
  ((args.headD "").split (· == '/')).getLast?.getD "zygiskd"

theorem splitOnP_pieces {α : Type} (p : α → Bool) (l : List α) :
    ∀ piece ∈ l.splitOnP p, ∀ c ∈ piece, p c = false := by
  induction l with
  | nil => simp [List.splitOnP_nil]
  | cons a l ih =>
    rw [List.splitOnP_cons]
    split_ifs with ha
    · simpa using ih
    · obtain ⟨h, t, hs⟩ := List.exists_cons_of_ne_nil (List.splitOnP_ne_nil p l)
      rw [hs] at ih ⊢
      simp only [List.modifyHead, List.forall_mem_cons] at ih ⊢
      exact ⟨⟨by simpa using ha, ih.1⟩, ih.2⟩

theorem intercalate_cons_cons {α : Type} (x : α) (a b : List α) (ls : List (List α)) :
    [x].intercalate (a :: b :: ls) = a ++ x :: [x].intercalate (b :: ls) := by
  simp [List.intercalate]

theorem intercalate_append_singleton {α : Type} (x : α) {ls : List (List α)} (hls : ls ≠ [])
    (last : List α) : [x].intercalate (ls ++ [last]) = [x].intercalate ls ++ x :: last := by
  induction ls with
  | nil => exact absurd rfl hls
  | cons a as ih =>
    cases as with
    | nil => simp [intercalate_cons_cons, List.intercalate]
    | cons b bs =>
      calc [x].intercalate (a :: b :: bs ++ [last])
          = a ++ x :: [x].intercalate (b :: bs ++ [last]) := intercalate_cons_cons x a b _
        _ = a ++ x :: ([x].intercalate (b :: bs) ++ x :: last) := by
          rw [ih (List.cons_ne_nil _ _)]
        _ = [x].intercalate (a :: b :: bs) ++ x :: last := by
          rw [intercalate_cons_cons]
          simp

/-- **The log tag.** The tag is the part of the first argument after its last `/`: the argument
is the tag with, before it, nothing or text ending in `/`, and the tag holds no `/`. -/
theorem processName_spec (args : List String) :
    ∃ pre, (args.headD "").toList = pre ++ (processName args).toList ∧
      '/' ∉ (processName args).toList ∧ (pre = [] ∨ pre.getLast? = some '/') := by
  obtain ⟨init, last, hps⟩ :=
    (List.eq_nil_or_concat _).resolve_left (List.splitOnP_ne_nil (· == '/') (args.headD "").data)
  rw [List.concat_eq_append] at hps
  have hname : processName args = ⟨last⟩ := by
    simp only [processName, String.split_of_valid, hps, List.map_append, List.map_cons, List.map_nil,
      List.getLast?_concat, Option.getD_some]
  have hlast : '/' ∉ last := fun h => by
    simpa using splitOnP_pieces (· == '/') (args.headD "").data last
      (by rw [hps]; exact List.mem_append_right _ (List.mem_singleton_self _)) '/' h
  have hjoin : ['/'].intercalate ((args.headD "").data.splitOn '/') = (args.headD "").data :=
    List.intercalate_splitOn _ '/'
  rw [List.splitOn, hps] at hjoin
  rw [hname]
  by_cases hinit : init = []
  · subst hinit
    refine ⟨[], ?_, hlast, .inl rfl⟩
    show (args.headD "").data = [] ++ last
    simpa [List.intercalate] using hjoin.symm
  · rw [intercalate_append_singleton _ hinit] at hjoin
    refine ⟨['/'].intercalate init ++ ['/'], ?_, hlast, .inr (by simp)⟩
    show (args.headD "").data = _ ++ last
    rw [← hjoin, List.append_assoc, List.singleton_append]

end Zygiskd
