import Olive.FormatSpec

/-! A formatted integer is its sign, its prefix and its numeral, padded as the spec says, and a spec
that is written in order is parsed into its fields. -/

namespace Olive

namespace FormatSpec

open Numerals

section Grouping

variable {sep : Char} {size idx : Nat} {chars : List Char}

theorem succ_mod {k n : Nat} (hn : 0 < n) :
    (k + 1) % n = if k % n + 1 = n then 0 else k % n + 1 := by
  have hlt := Nat.mod_lt k hn
  rw [← Nat.mod_add_mod]
  split
  next heq => rw [heq, Nat.mod_self]
  next hne => exact Nat.mod_eq_of_lt (by omega)

theorem filter_groupFrom (h : sep ∉ chars) :
    (groupFrom sep size idx chars).filter (· != sep) = chars := by
  induction chars generalizing idx with
  | nil => rfl
  | cons c chars ih =>
    have hc : (c != sep) = true := by
      simp only [bne_iff_ne, ne_eq]
      exact fun heq => h (heq ▸ List.mem_cons_self)
    have hrest : (groupFrom sep size (idx + 1) chars).filter (· != sep) = chars :=
      ih (fun hmem => h (List.mem_cons_of_mem c hmem))
    unfold groupFrom
    split
    · rw [List.filter_cons_of_neg (by simp), List.filter_cons, if_pos hc, hrest]
    · rw [List.filter_cons, if_pos hc, hrest]

theorem getLast?_groupFrom : (groupFrom sep size idx chars).getLast? = chars.getLast? := by
  induction chars generalizing idx with
  | nil => rfl
  | cons c chars ih =>
    have hrest : (groupFrom sep size (idx + 1) chars).getLast? = chars.getLast? := ih
    unfold groupFrom
    split
    · rw [List.getLast?_cons, List.getLast?_cons, List.getLast?_cons, hrest]
      simp
    · rw [List.getLast?_cons, List.getLast?_cons, hrest]

/-- The digit with the index `idx` is written from the place `place` on, a separator before it. -/
def PlaceOf (size idx place : Nat) : Prop :=
  place % (size + 1) = if 0 < idx ∧ idx % size = 0 then size else idx % size

theorem getElem?_groupFrom (hsize : 0 < size) (h : sep ∉ chars) {place : Nat}
    (hplace : PlaceOf size idx place) (i : Nat) :
    (groupFrom sep size idx chars)[i]? = some sep ↔
      i < (groupFrom sep size idx chars).length ∧ (place + i) % (size + 1) = size := by
  induction chars generalizing idx place i with
  | nil => simp [groupFrom]
  | cons c chars ih =>
    have hc : c ≠ sep := fun heq => h (heq ▸ List.mem_cons_self)
    have hrest : sep ∉ chars := fun hmem => h (List.mem_cons_of_mem c hmem)
    have hlt := Nat.mod_lt idx hsize
    have hnext := succ_mod (k := idx) hsize
    have hstep := succ_mod (k := place) (n := size + 1) (by omega)
    unfold PlaceOf at hplace
    unfold groupFrom
    split
    next hsep =>
      rw [if_pos hsep] at hplace
      rw [hplace, if_pos rfl] at hstep
      have hstep' := succ_mod (k := place + 1) (n := size + 1) (by omega)
      rw [hstep] at hstep'
      have hplace' : PlaceOf size (idx + 1) (place + 2) := by
        unfold PlaceOf
        rw [show place + 2 = place + 1 + 1 from rfl]
        split_ifs at * <;> omega
      have hrun := ih hrest hplace'
      match i with
      | 0 => simpa using hplace
      | 1 =>
        simp only [List.getElem?_cons_succ, List.getElem?_cons_zero, Option.some.injEq, hc, false_iff,
          hstep]
        omega
      | i + 2 =>
        rw [List.getElem?_cons_succ, List.getElem?_cons_succ, hrun, List.length_cons,
          List.length_cons, show place + (i + 2) = place + 2 + i by omega]
        omega
    next hsep =>
      rw [if_neg hsep] at hplace
      have hplace' : PlaceOf size (idx + 1) (place + 1) := by
        unfold PlaceOf
        split_ifs at * <;> omega
      have hrun := ih hrest hplace'
      match i with
      | 0 =>
        simp only [List.getElem?_cons_zero, Option.some.injEq, hc, false_iff, Nat.add_zero, hplace]
        omega
      | i + 1 =>
        rw [List.getElem?_cons_succ, hrun, List.length_cons,
          show place + (i + 1) = place + 1 + i by omega]
        omega

end Grouping

section Padding

variable {spec : Spec} {sign pre body : List Char}

/-- How a text is padded: between the prefix and the digits for `=`, else around the whole. -/
structure Padded (spec : Spec) (sign pre body text : List Char) : Prop where
  parts : ∃ left mid right : Nat, text = List.replicate left spec.fill ++ sign ++ pre ++
      List.replicate mid spec.fill ++ body ++ List.replicate right spec.fill ∧
    (spec.align = some '=' → left = 0 ∧ right = 0) ∧ (spec.align ≠ some '=' → mid = 0) ∧
    (spec.align = some '<' → left = 0) ∧ (spec.align = some '^' → left = (left + right) / 2) ∧
    (spec.align = some '>' ∨ spec.align = none → right = 0)
  length : text.length = max spec.width (sign ++ pre ++ body).length

theorem align_cases (h : ∀ a, spec.align = some a → isAlign a = true) :
    spec.align = none ∨ spec.align = some '<' ∨ spec.align = some '>' ∨ spec.align = some '=' ∨
      spec.align = some '^' := by
  cases halign : spec.align with
  | none => exact .inl rfl
  | some a =>
    have ha := h a halign
    simp only [isAlign, Bool.or_eq_true, beq_iff_eq] at ha
    rcases ha with ((rfl | rfl) | rfl) | rfl <;> simp

theorem pad_padded (h : ∀ a, spec.align = some a → isAlign a = true) :
    Padded spec sign pre body (pad body sign pre spec) := by
  have hlength : (sign ++ pre ++ body).length = sign.length + pre.length + body.length := by
    simp only [List.length_append]
  unfold pad
  dsimp only
  split
  next hle =>
    refine ⟨⟨0, 0, 0, by simp, by simp, by simp, by simp, by simp, by simp⟩, ?_⟩
    rw [hlength]
    omega
  next hgt =>
    obtain ⟨count, hcount⟩ : ∃ count, count = spec.width - (sign.length + pre.length + body.length) :=
      ⟨_, rfl⟩
    rw [← hcount]
    rcases align_cases h with ha | ha | ha | ha | ha
    · refine ⟨⟨count, 0, 0, by simp [ha], by simp [ha], by simp, by simp [ha], by simp [ha],
        by simp⟩, ?_⟩
      rw [ha]
      show (List.replicate count spec.fill ++ sign ++ pre ++ body).length = _
      simp only [List.length_append, List.length_replicate]
      omega
    · refine ⟨⟨0, 0, count, by simp [ha], by simp [ha], by simp, by simp, by simp [ha],
        by simp [ha]⟩, ?_⟩
      simp only [ha, Option.getD_some, List.length_append, List.length_replicate]
      omega
    · refine ⟨⟨count, 0, 0, by simp [ha], by simp [ha], by simp, by simp [ha], by simp [ha],
        by simp⟩, ?_⟩
      rw [ha]
      show (List.replicate count spec.fill ++ sign ++ pre ++ body).length = _
      simp only [List.length_append, List.length_replicate]
      omega
    · refine ⟨⟨0, count, 0, by simp [ha], by simp, by simp [ha], by simp, by simp [ha],
        by simp⟩, ?_⟩
      simp only [ha, Option.getD_some, List.length_append, List.length_replicate]
      omega
    · refine ⟨⟨count / 2, 0, count - count / 2, by simp [ha], by simp [ha], by simp, by simp [ha],
        fun _ => by omega, by simp [ha]⟩, ?_⟩
      simp only [ha, Option.getD_some, List.length_append, List.length_replicate]
      omega

end Padding

section Digits

variable {spec : Spec} {mag : Nat}

def baseOf : Option Char → Nat
  | some 'b' => 2
  | some 'o' => 8
  | some 'x' | some 'X' => 16
  | _ => 10

def digitOf (ty : Option Char) (d : Nat) : Char :=
  if ty = some 'X' then (Nat.digitChar d).toUpper else Nat.digitChar d

def groupOf (ty : Option Char) : Nat :=
  if baseOf ty = 10 then 3 else 4

def prefixOf (spec : Spec) : List Char :=
  match spec.alt, spec.ty with
  | true, some 'b' => ['0', 'b']
  | true, some 'o' => ['0', 'o']
  | true, some 'x' => ['0', 'x']
  | true, some 'X' => ['0', 'X']
  | _, _ => []

def signOf (spec : Spec) (neg : Bool) : List Char :=
  if neg then ['-'] else if spec.sign = '+' then ['+'] else if spec.sign = ' ' then [' '] else []

/-- The types that the law is about. -/
def IsIntegerType (ty : Option Char) : Prop :=
  ty = none ∨ ty = some 'd' ∨ ty = some 'b' ∨ ty = some 'o' ∨ ty = some 'x' ∨ ty = some 'X'

/-- The numeral of a number, a separator before every group but the first. -/
structure Grouped (spec : Spec) (mag : Nat) (digits : List Char) : Prop where
  numeral : IsNumeral (baseOf spec.ty) (digitOf spec.ty) mag
    (digits.filter fun c => some c != spec.grouping)
  separators : ∀ sep, spec.grouping = some sep → ∀ i < digits.length,
    (digits.reverse[i]? = some sep ↔ i % (groupOf spec.ty + 1) = groupOf spec.ty)
  leading : ∀ sep, spec.grouping = some sep → digits.head? ≠ some sep

theorem magnitude_eq (hty : IsIntegerType spec.ty) (mag : Nat) : ∃ digits,
    magnitude mag spec = (digits, prefixOf spec, groupOf spec.ty) ∧
      IsNumeral (baseOf spec.ty) (digitOf spec.ty) mag digits := by
  have hten := isNumeral_toDigits (show 1 < 10 by decide) mag
  have hsixteen := isNumeral_toDigits (show 1 < 16 by decide) mag
  unfold magnitude prefixOf
  rcases hty with hty | hty | hty | hty | hty | hty <;> rw [hty]
  · exact ⟨_, by cases spec.alt <;> rfl, hten⟩
  · exact ⟨_, by cases spec.alt <;> rfl, hten⟩
  · exact ⟨_, by cases spec.alt <;> rfl, isNumeral_toDigits (show 1 < 2 by decide) mag⟩
  · exact ⟨_, by cases spec.alt <;> rfl, isNumeral_toDigits (show 1 < 8 by decide) mag⟩
  · exact ⟨_, by cases spec.alt <;> rfl, hsixteen⟩
  · exact ⟨_, by cases spec.alt <;> rfl, hsixteen.map Char.toUpper⟩

theorem digitOf_ne {ty : Option Char} {sep : Char} (h : isGrouping sep = true) :
    ∀ d < baseOf ty, digitOf ty d ≠ sep := by
  have hbase : baseOf ty ≤ 16 := by
    unfold baseOf
    split <;> decide
  have hdigit : ∀ d < 16, isGrouping (Nat.digitChar d) = false ∧
      isGrouping (Nat.digitChar d).toUpper = false := by decide
  intro d hd heq
  have hd' := hdigit d (by omega)
  unfold digitOf at heq
  split at heq <;> simp [← heq, hd'] at h

theorem groupDigits_grouped {digits : List Char} {sep : Char} (hsep : spec.grouping = some sep)
    (hkind : isGrouping sep = true)
    (h : IsNumeral (baseOf spec.ty) (digitOf spec.ty) mag digits) :
    Grouped spec mag (groupDigits digits sep (groupOf spec.ty)) := by
  have hnot := h.not_mem (digitOf_ne hkind)
  have hnot' : sep ∉ digits.reverse := fun hmem => hnot (List.mem_reverse.mp hmem)
  have hsize : 0 < groupOf spec.ty := by
    unfold groupOf
    split <;> decide
  refine ⟨?_, ?_, ?_⟩
  · have hfilter : (groupDigits digits sep (groupOf spec.ty)).filter
        (fun c => some c != spec.grouping) = digits := by
      have hsame : (fun c => some c != spec.grouping) = fun c => c != sep := by
        funext c
        rw [hsep]
        rfl
      rw [hsame, groupDigits, List.filter_reverse, filter_groupFrom hnot', List.reverse_reverse]
    rw [hfilter]
    exact h
  · intro other hother i hi
    obtain rfl : sep = other := Option.some.inj (hsep.symm.trans hother)
    have hplace : PlaceOf (groupOf spec.ty) 0 0 := by simp [PlaceOf]
    have hiff := getElem?_groupFrom hsize hnot' hplace i
    rw [Nat.zero_add] at hiff
    unfold groupDigits at hi ⊢
    rw [List.length_reverse] at hi
    rw [List.reverse_reverse, hiff]
    exact and_iff_right hi
  · intro other hother hhead
    obtain rfl : sep = other := Option.some.inj (hsep.symm.trans hother)
    rw [groupDigits, List.head?_reverse, getLast?_groupFrom, List.getLast?_reverse] at hhead
    exact hnot (List.mem_of_head? hhead)

/-- The digits that are padded. -/
theorem digits_grouped {digits : List Char}
    (hkind : ∀ sep, spec.grouping = some sep → isGrouping sep = true)
    (h : IsNumeral (baseOf spec.ty) (digitOf spec.ty) mag digits) :
    Grouped spec mag (match spec.grouping with
      | some sep => groupDigits digits sep (groupOf spec.ty)
      | none => digits) := by
  cases hsep : spec.grouping with
  | some sep => exact groupDigits_grouped hsep (hkind sep hsep) h
  | none =>
    refine ⟨?_, fun sep heq => ?_, fun sep heq => ?_⟩
    · have hall : digits.filter (fun c => some c != spec.grouping) = digits :=
        List.filter_eq_self.mpr (fun c _ => by rw [hsep]; rfl)
      dsimp only
      rw [hall]
      exact h
    · rw [hsep] at heq
      cases heq
    · rw [hsep] at heq
      cases heq

theorem signStr_eq (neg : Bool) : signStr neg spec = signOf spec neg := by
  unfold signStr signOf
  cases neg with
  | true => rfl
  | false =>
    simp only [Bool.false_eq_true, if_false]
    split
    next heq => rw [if_pos heq]
    next heq => rw [heq, if_neg (by decide), if_pos rfl]
    next hplus hspace => rw [if_neg hplus, if_neg hspace]

end Digits

section Parser

variable {p : Char → Bool} {c : Char} {chars s : List Char}

theorem takeOne_some (h : (takeOne p chars).1 = some c) : p c = true := by
  cases chars with
  | nil => cases h
  | cons d chars =>
    rw [takeOne] at h
    split at h
    next hp =>
      obtain rfl := Option.some.inj h
      exact hp
    next => cases h

/-- Nothing is taken where another kind of character stands. -/
theorem takeOne_stop (h : ∀ d, chars.head? = some d → p d = false) :
    takeOne p chars = (none, chars) := by
  cases chars with
  | nil => rfl
  | cons d chars => rw [takeOne, if_neg (by simp [h d rfl])]

theorem takeAlign_some (h : (takeAlign s).2.1 = some c) : isAlign c = true := by
  unfold takeAlign at h
  split at h
  · split at h
    next ha => exact Option.some.inj h ▸ ha
    · split at h
      next hf => exact Option.some.inj h ▸ hf
      · cases h
  · split at h
    next ha => exact Option.some.inj h ▸ ha
    · cases h
  · cases h

theorem parse_align (h : (parse s).align = some c) : isAlign c = true := by
  have halign := takeAlign_some (s := s) (c := c)
  unfold parse at h
  dsimp only at h
  split at h
  · exact Option.some.inj h ▸ rfl
  · exact halign h

theorem parse_grouping (h : (parse s).grouping = some c) : isGrouping c = true :=
  takeOne_some h

end Parser

section Fields

/-- The fields of a spec as they are written, in order. -/
structure Fields where
  align : Option (Option Char × Char)
  sign : Option Char
  alt : Bool
  zero : Bool
  width : List Char
  grouping : Option Char
  precision : Option (List Char)
  ty : Option Char

structure Fields.Valid (f : Fields) : Prop where
  align : ∀ fill a, f.align = some (fill, a) → isAlign a = true
  sign : ∀ c, f.sign = some c → isSign c = true
  width : ∀ c ∈ f.width, isAsciiDigit c = true
  width_first : f.zero = false → f.width.head? ≠ some '0'
  grouping : ∀ c, f.grouping = some c → isGrouping c = true
  precision : ∀ digits, f.precision = some digits → ∀ c ∈ digits, isAsciiDigit c = true
  ty : IsIntegerType f.ty

def optional (present : Bool) (c : Char) : Option Char := if present then some c else none

def Fields.afterWidth (f : Fields) : List Char :=
  f.grouping.toList ++ ((f.precision.map ('.' :: ·)).getD [] ++ f.ty.toList)

def Fields.afterAlign (f : Fields) : List Char :=
  f.sign.toList ++ ((optional f.alt '#').toList ++ ((optional f.zero '0').toList ++
    (f.width ++ f.afterWidth)))

def Fields.text (f : Fields) : List Char :=
  (match f.align with
  | some (fill, a) => fill.toList ++ [a]
  | none => []) ++ f.afterAlign

/-- The spec of the fields: a zero without an alignment fills with zeros after the sign. -/
def Fields.spec (f : Fields) : Spec where
  fill := match f.align with
    | some (fill, _) => fill.getD ' '
    | none => if f.zero then '0' else ' '
  align := match f.align with
    | some (_, a) => some a
    | none => optional f.zero '='
  sign := f.sign.getD '-'
  alt := f.alt
  zero := f.zero
  width := parseUsize f.width
  grouping := f.grouping
  precision := f.precision.map parseUsize
  ty := f.ty

/-- Where in the order of the fields a character starts one. -/
def rank (c : Char) : Nat :=
  if isAlign c then 0 else if isSign c then 1 else if c = '#' then 2 else if c = '0' then 3
  else if isAsciiDigit c then 4 else if isGrouping c then 5 else if c = '.' then 6 else 7

def StartsFrom (k : Nat) (chars : List Char) : Prop := ∀ c, chars.head? = some c → k ≤ rank c

variable {k : Nat} {o : Option Char} {chars rest : List Char} {p : Char → Bool} {f : Fields}

theorem StartsFrom.option (ho : ∀ c, o = some c → k ≤ rank c) (h : StartsFrom k rest) :
    StartsFrom k (o.toList ++ rest) := by
  cases o with
  | none => exact h
  | some c =>
    intro d hd
    obtain rfl := Option.some.inj hd
    exact ho c rfl

theorem StartsFrom.weaken {j : Nat} (h : StartsFrom k chars) (hjk : j ≤ k) : StartsFrom j chars :=
  fun c hc => hjk.trans (h c hc)

/-- An optional field is taken where it stands and left out where it does not. -/
theorem takeOne_option (ho : ∀ c, o = some c → p c = true) (h : StartsFrom k rest)
    (hp : ∀ c, p c = true → rank c < k) : takeOne p (o.toList ++ rest) = (o, rest) := by
  cases o with
  | some c => exact (if_pos (ho c rfl)).trans rfl
  | none =>
    refine takeOne_stop fun d hd => ?_
    by_contra hpd
    have hlt := hp d (by simpa using hpd)
    have hle := h d hd
    omega

/-- The digits are taken up to a field of another kind. -/
theorem takeDigits (hdigits : ∀ c ∈ chars, isAsciiDigit c = true)
    (h : ∀ c, rest.head? = some c → isAsciiDigit c = false) :
    (chars ++ rest).takeWhile isAsciiDigit = chars ∧ (chars ++ rest).dropWhile isAsciiDigit = rest := by
  have hstop : rest.takeWhile isAsciiDigit = [] ∧ rest.dropWhile isAsciiDigit = rest := by
    cases rest with
    | nil => exact ⟨rfl, rfl⟩
    | cons c rest => simp [h c rfl]
  rw [List.takeWhile_append_of_pos hdigits, List.dropWhile_append_of_pos hdigits, hstop.1, hstop.2,
    List.append_nil]
  exact ⟨rfl, rfl⟩

section Ranks

variable {c : Char}

theorem rank_isAlign (h : isAlign c = true) : rank c = 0 := if_pos h

theorem rank_isSign (h : isSign c = true) : rank c = 1 := by
  simp only [isSign, Bool.or_eq_true, beq_iff_eq] at h
  rcases h with (rfl | rfl) | rfl <;> rfl

theorem rank_isGrouping (h : isGrouping c = true) : rank c = 5 := by
  simp only [isGrouping, Bool.or_eq_true, beq_iff_eq] at h
  rcases h with rfl | rfl <;> rfl

theorem rank_type (h : IsIntegerType (some c)) : rank c = 7 := by
  rcases h with h | h | h | h | h | h <;> cases h <;> rfl

theorem rank_isAsciiDigit (h : isAsciiDigit c = true) : rank c = if c = '0' then 3 else 4 := by
  have halign : isAlign c = false := by
    by_contra hne
    simp only [Bool.not_eq_false, isAlign, Bool.or_eq_true, beq_iff_eq] at hne
    rcases hne with ((rfl | rfl) | rfl) | rfl <;> exact absurd h (by decide)
  have hsign : isSign c = false := by
    by_contra hne
    simp only [Bool.not_eq_false, isSign, Bool.or_eq_true, beq_iff_eq] at hne
    rcases hne with (rfl | rfl) | rfl <;> exact absurd h (by decide)
  have halt : c ≠ '#' := by
    rintro rfl
    exact absurd h (by decide)
  unfold rank
  rw [if_neg (by simp [halign]), if_neg (by simp [hsign]), if_neg halt, if_pos h]

end Ranks

theorem Fields.Valid.afterPrecision (h : f.Valid) : StartsFrom 7 f.ty.toList := by
  intro c hc
  have hty : f.ty = some c := by
    cases hf : f.ty with
    | none => rw [hf] at hc; cases hc
    | some d => rw [hf] at hc; exact hc
  exact (rank_type (hty ▸ h.ty)).ge

theorem Fields.Valid.afterGrouping (h : f.Valid) :
    StartsFrom 6 ((f.precision.map ('.' :: ·)).getD [] ++ f.ty.toList) := by
  cases hf : f.precision with
  | none => exact h.afterPrecision.weaken (by decide)
  | some digits =>
    intro c hc
    obtain rfl : '.' = c := Option.some.inj hc
    decide

theorem Fields.Valid.afterWidth (h : f.Valid) : StartsFrom 5 f.afterWidth :=
  .option (fun c hc => (rank_isGrouping (h.grouping c hc)).ge) (h.afterGrouping.weaken (by decide))

theorem Fields.Valid.afterZero (h : f.Valid) : StartsFrom 3 (f.width ++ f.afterWidth) := by
  cases hw : f.width with
  | nil => exact h.afterWidth.weaken (by decide)
  | cons d width =>
    intro c hc
    obtain rfl : d = c := Option.some.inj hc
    rw [rank_isAsciiDigit (h.width d (hw ▸ List.mem_cons_self))]
    split <;> decide

theorem Fields.Valid.width_start (h : f.Valid) (hz : f.zero = false) :
    StartsFrom 4 (f.width ++ f.afterWidth) := by
  have hfirst := h.width_first hz
  cases hw : f.width with
  | nil => exact h.afterWidth.weaken (by decide)
  | cons d width =>
    intro c hc
    obtain rfl : d = c := Option.some.inj hc
    rw [hw] at hfirst
    rw [rank_isAsciiDigit (h.width d (hw ▸ List.mem_cons_self)),
      if_neg (fun heq => hfirst (by rw [heq]; rfl))]

theorem Fields.Valid.afterAlt (h : f.Valid) :
    StartsFrom 3 ((optional f.zero '0').toList ++ (f.width ++ f.afterWidth)) := by
  refine .option (fun c hc => ?_) h.afterZero
  cases hz : f.zero <;> rw [hz] at hc <;> cases hc
  decide

theorem Fields.Valid.afterSign (h : f.Valid) :
    StartsFrom 2 ((optional f.alt '#').toList ++ ((optional f.zero '0').toList ++
      (f.width ++ f.afterWidth))) := by
  refine .option (fun c hc => ?_) (h.afterAlt.weaken (by decide))
  cases hz : f.alt <;> rw [hz] at hc <;> cases hc
  decide

theorem Fields.Valid.afterAlign (h : f.Valid) : StartsFrom 1 f.afterAlign :=
  .option (fun c hc => (rank_isSign (h.sign c hc)).ge) (h.afterSign.weaken (by decide))

theorem isAlign_of_rank {c : Char} (h : 0 < rank c) : isAlign c = false := by
  by_contra hne
  rw [rank_isAlign (by simpa using hne)] at h
  exact absurd h (by decide)

/-- None of the fields after it can be taken for an alignment. -/
theorem Fields.Valid.no_align (h : f.Valid) : ∀ c ∈ f.afterAlign, isAlign c = false := by
  have hdigits : ∀ c, isAsciiDigit c = true → isAlign c = false := by
    intro c hc
    apply isAlign_of_rank
    rw [rank_isAsciiDigit hc]
    split <;> decide
  intro c hc
  simp only [Fields.afterAlign, Fields.afterWidth, List.mem_append, Option.mem_toList] at hc
  rcases hc with hc | hc | hc | hc | hc | hc | hc
  · exact isAlign_of_rank (by rw [rank_isSign (h.sign c hc)]; decide)
  · cases hz : f.alt <;> rw [hz] at hc <;> cases hc
    rfl
  · cases hz : f.zero <;> rw [hz] at hc <;> cases hc
    rfl
  · exact hdigits c (h.width c hc)
  · exact isAlign_of_rank (by rw [rank_isGrouping (h.grouping c hc)]; decide)
  · cases hp : f.precision with
    | none => simp [hp] at hc
    | some digits =>
      simp only [hp, Option.map_some, Option.getD_some, List.mem_cons] at hc
      rcases hc with rfl | hc
      · rfl
      · exact hdigits c (h.precision digits hp c hc)
  · exact isAlign_of_rank (by rw [rank_type (hc ▸ h.ty)]; decide)

theorem Fields.Valid.takeAlign_text (h : f.Valid) : takeAlign f.text =
    (match f.align with
      | some (fill, _) => fill.getD ' '
      | none => ' ', f.align.map Prod.snd, f.afterAlign) := by
  have hno := h.no_align
  unfold Fields.text
  rcases hf : f.align with _ | ⟨_ | fill, a⟩
  · generalize f.afterAlign = chars at hno
    match chars with
    | [] => rfl
    | [c] => simp [takeAlign, hno c (by simp)]
    | c :: d :: rest => simp [takeAlign, hno c (by simp), hno d (by simp)]
  · have ha := h.align none a hf
    generalize f.afterAlign = chars at hno
    match chars with
    | [] => simp [takeAlign, ha]
    | d :: rest => simp [takeAlign, ha, hno d (by simp)]
  · have ha := h.align (some fill) a hf
    simp [takeAlign, ha]

theorem optional_isSome (present : Bool) (c : Char) : (optional present c).isSome = present := by
  cases present <;> rfl

theorem Fields.Valid.takeZero (h : f.Valid) :
    takeOne (· == '0') ((optional f.zero '0').toList ++ (f.width ++ f.afterWidth)) =
      (optional f.zero '0', f.width ++ f.afterWidth) := by
  cases hz : f.zero with
  | true => rfl
  | false =>
    refine takeOne_stop fun c hc => ?_
    have hrank := h.width_start hz c hc
    by_contra hne
    obtain rfl : c = '0' := by simpa using hne
    exact absurd hrank (by decide)

/-- The precision and the type, behind a point that is taken where there is a precision. -/
theorem Fields.Valid.takePrecision (h : f.Valid) :
    ∃ chars, takeOne (· == '.') ((f.precision.map ('.' :: ·)).getD [] ++ f.ty.toList) =
        (optional f.precision.isSome '.', chars) ∧
      (optional f.precision.isSome '.').map (fun _ => parseUsize (chars.takeWhile isAsciiDigit)) =
        f.precision.map parseUsize ∧
      (if f.precision.isSome then chars.dropWhile isAsciiDigit else chars) = f.ty.toList := by
  have hty := h.afterPrecision
  cases hp : f.precision with
  | none =>
    refine ⟨f.ty.toList, takeOne_stop fun c hc => ?_, rfl, rfl⟩
    by_contra hne
    obtain rfl : c = '.' := by simpa using hne
    exact absurd (hty _ hc) (by decide)
  | some digits =>
    obtain ⟨htake, hdrop⟩ := takeDigits (h.precision digits hp) (fun c hc => by
      by_contra hne
      have hrank := hty c hc
      rw [rank_isAsciiDigit (by simpa using hne)] at hrank
      split at hrank <;> exact absurd hrank (by decide))
    exact ⟨digits ++ f.ty.toList, rfl, congrArg (fun ds => some (parseUsize ds)) htake, hdrop⟩

/-- Fields written in order are parsed. -/
theorem parse_text (h : f.Valid) : parse f.text = f.spec := by
  have hsign : takeOne isSign f.afterAlign = (f.sign, _) :=
    takeOne_option h.sign h.afterSign (fun c hc => by rw [rank_isSign hc]; decide)
  have halt : takeOne (· == '#') ((optional f.alt '#').toList ++ ((optional f.zero '0').toList ++
      (f.width ++ f.afterWidth))) =
        (optional f.alt '#', (optional f.zero '0').toList ++ (f.width ++ f.afterWidth)) := by
    refine takeOne_option (fun c hc => ?_) h.afterAlt (fun c hc => ?_)
    · cases hz : f.alt <;> rw [hz] at hc <;> cases hc
      rfl
    · obtain rfl : c = '#' := by simpa using hc
      decide
  have hwidth := takeDigits h.width (fun c hc => by
    by_contra hne
    have hrank := h.afterWidth c hc
    rw [rank_isAsciiDigit (by simpa using hne)] at hrank
    split at hrank <;> exact absurd hrank (by decide))
  have hgrouping : takeOne isGrouping f.afterWidth = (f.grouping, _) :=
    takeOne_option h.grouping h.afterGrouping (fun c hc => by rw [rank_isGrouping hc]; decide)
  obtain ⟨chars, hdot, hprecision, hrest⟩ := h.takePrecision
  have hempty : (if f.width.isEmpty then 0 else parseUsize f.width) = parseUsize f.width := by
    cases f.width <;> rfl
  have htyHead : f.ty.toList.head? = f.ty := by
    cases f.ty <;> rfl
  unfold parse
  rw [h.takeAlign_text]
  dsimp only
  rw [hsign]
  dsimp only
  rw [halt]
  dsimp only
  rw [h.takeZero]
  dsimp only
  rw [hwidth.1, hwidth.2, hgrouping]
  dsimp only
  rw [hdot]
  dsimp only
  simp only [optional_isSome]
  rw [hprecision, hempty, hrest, htyHead]
  unfold Fields.spec
  rcases f.align with _ | ⟨fill, a⟩ <;> cases f.zero <;> rfl

end Fields

section Statement

variable {s : List Char}

theorem IsIntegerType.ne_char {ty : Option Char} (h : IsIntegerType ty) : ty ≠ some 'c' := by
  rintro rfl
  rcases h with h | h | h | h | h | h <;> cases h

theorem fmtSpecInt_padded {spec : Spec} (hty : IsIntegerType spec.ty)
    (halign : ∀ a, spec.align = some a → isAlign a = true)
    (hkind : ∀ sep, spec.grouping = some sep → isGrouping sep = true) (v : Int) :
    ∃ digits, Grouped spec v.natAbs digits ∧
      Padded spec (signOf spec (v < 0)) (prefixOf spec) digits (fmtSpecInt v spec) := by
  obtain ⟨digits, hmagnitude, hnumeral⟩ := magnitude_eq hty v.natAbs
  refine ⟨_, digits_grouped hkind hnumeral, ?_⟩
  unfold fmtSpecInt
  rw [if_neg hty.ne_char, hmagnitude, signStr_eq]
  exact pad_padded halign

theorem fmtSpecUint_padded {spec : Spec} (hty : IsIntegerType spec.ty)
    (halign : ∀ a, spec.align = some a → isAlign a = true)
    (hkind : ∀ sep, spec.grouping = some sep → isGrouping sep = true) (v : Nat) :
    ∃ digits, Grouped spec v digits ∧
      Padded spec (signOf spec false) (prefixOf spec) digits (fmtSpecUint v spec) := by
  obtain ⟨digits, hmagnitude, hnumeral⟩ := magnitude_eq hty v
  refine ⟨_, digits_grouped hkind hnumeral, ?_⟩
  unfold fmtSpecUint
  rw [if_neg hty.ne_char, hmagnitude, signStr_eq]
  exact pad_padded halign

/-- Under every spec text of an integer type an integer is formatted as its sign, its prefix and its
grouped numeral, padded to the width as the alignment says; fields that are written in order are the
fields that are read. -/
theorem format_spec_denotes (hty : IsIntegerType (parse s).ty) :
    (∀ v : Int, ∃ digits, Grouped (parse s) v.natAbs digits ∧
      Padded (parse s) (signOf (parse s) (v < 0)) (prefixOf (parse s)) digits
        (fmtSpecInt v (parse s))) ∧
    (∀ v : Nat, ∃ digits, Grouped (parse s) v digits ∧
      Padded (parse s) (signOf (parse s) false) (prefixOf (parse s)) digits
        (fmtSpecUint v (parse s))) ∧
    ∀ f : Fields, f.Valid → f.text = s → parse s = f.spec := by
  refine ⟨fmtSpecInt_padded hty (fun a => parse_align) (fun sep => parse_grouping),
    fmtSpecUint_padded hty (fun a => parse_align) (fun sep => parse_grouping), ?_⟩
  rintro f hf rfl
  exact parse_text hf

/-- The least `i64` in hexadecimal, in groups, centred between stars. -/
theorem format_spec_denotes_min : ∃ digits,
    Grouped (parse "*^+#30_x".toList) (2 ^ 63) digits ∧
      Padded (parse "*^+#30_x".toList) ['-'] ['0', 'x'] digits
        (fmtSpecInt (-2 ^ 63) (parse "*^+#30_x".toList)) :=
  (format_spec_denotes (by
    rw [show (parse "*^+#30_x".toList).ty = some 'x' by decide]
    exact .inr (.inr (.inr (.inr (.inl rfl)))))).1 (-2 ^ 63)

example : fmtSpecInt (-2 ^ 63) (parse "*^+#30_x".toList) = "****-0x8000_0000_0000_0000****".toList := by
  decide

end Statement

end FormatSpec

end Olive
