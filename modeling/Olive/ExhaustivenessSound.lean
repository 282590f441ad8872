import Olive.Exhaustiveness

/-! What an accepted match covers, and what a reported gap leaves out. -/

namespace Olive

namespace Exhaustiveness

section Intervals

variable {intervals : List (Int × Int)} {fullLo fullHi cursor : Int}

/-- Nothing from the cursor on is left out if no gap is found. -/
theorem gapFrom_none (hmax : fullHi ≤ i64Max) (h : gapFrom fullHi intervals cursor = none) {n : Int}
    (hn : cursor ≤ n) (hn' : n ≤ fullHi) : ∃ iv ∈ intervals, iv.1 ≤ n ∧ n ≤ iv.2 := by
  induction intervals generalizing cursor with
  | nil =>
    rw [gapFrom, if_pos (by omega)] at h
    cases h
  | cons iv rest ih =>
    obtain ⟨lo, hi⟩ := iv
    rw [gapFrom] at h
    split at h
    next => cases h
    next hlo =>
      by_cases hnhi : n ≤ hi
      · exact ⟨(lo, hi), List.mem_cons_self .., by dsimp only; omega, hnhi⟩
      · have hrest : ∀ cursor ≤ n, gapFrom fullHi rest cursor = none →
            ∃ iv ∈ (lo, hi) :: rest, iv.1 ≤ n ∧ n ≤ iv.2 := by
          intro cursor hc h
          obtain ⟨iv, hmem, hiv⟩ := ih h hc
          exact ⟨iv, List.mem_cons_of_mem _ hmem, hiv⟩
        split at h
        next =>
          split at h
          next => omega
          next =>
            split at h
            next => omega
            next => exact hrest (hi + 1) (by omega) h
        next =>
          split at h
          next => omega
          next => exact hrest cursor hn h

/-- No interval meets the gap that is found. -/
theorem gapFrom_some (hsorted : intervals.Pairwise fun a b => a.1 ≤ b.1) {a b : Int}
    (h : gapFrom fullHi intervals cursor = some (a, b)) :
    cursor ≤ a ∧ ∀ iv ∈ intervals, iv.2 < a ∨ b < iv.1 := by
  induction intervals generalizing cursor with
  | nil =>
    rw [gapFrom] at h
    split at h
    next =>
      cases h
      exact ⟨le_rfl, by simp⟩
    next => cases h
  | cons iv rest ih =>
    obtain ⟨lo, hi⟩ := iv
    obtain ⟨hfirst, hrest⟩ := List.pairwise_cons.mp hsorted
    rw [gapFrom] at h
    split at h
    next =>
      cases h
      refine ⟨le_rfl, List.forall_mem_cons.mpr ⟨?_, fun iv hiv => ?_⟩⟩
      · right
        dsimp only
        omega
      · have hle := hfirst iv hiv
        dsimp only at hle
        right
        omega
    next =>
      split at h
      next =>
        split at h
        next => cases h
        next =>
          split at h
          next => cases h
          next =>
            obtain ⟨hle, hout⟩ := ih hrest h
            refine ⟨by omega, List.forall_mem_cons.mpr ⟨?_, hout⟩⟩
            left
            dsimp only
            omega
      next =>
        split at h
        next => cases h
        next =>
          obtain ⟨hle, hout⟩ := ih hrest h
          refine ⟨hle, List.forall_mem_cons.mpr ⟨?_, hout⟩⟩
          left
          dsimp only
          omega

theorem firstGap_none (hmax : fullHi ≤ i64Max) (h : firstGap intervals fullLo fullHi = none) {n : Int}
    (hn : fullLo ≤ n) (hn' : n ≤ fullHi) : ∃ iv ∈ intervals, iv.1 ≤ n ∧ n ≤ iv.2 := by
  obtain ⟨iv, hmem, hiv⟩ := gapFrom_none hmax h hn hn'
  exact ⟨iv, List.mem_mergeSort.mp hmem, hiv⟩

theorem firstGap_some {a b : Int} (h : firstGap intervals fullLo fullHi = some (a, b)) :
    fullLo ≤ a ∧ ∀ iv ∈ intervals, iv.2 < a ∨ b < iv.1 := by
  have hsorted : (intervals.mergeSort fun a b => a.1 ≤ b.1).Pairwise fun a b => a.1 ≤ b.1 := by
    have hsort : (intervals.mergeSort fun a b => a.1 ≤ b.1).Pairwise
        fun a b => decide (a.1 ≤ b.1) = true :=
      List.pairwise_mergeSort (fun a b c hab hbc => by simp only [decide_eq_true_eq] at *; omega)
        (fun a b => by simp only [Bool.or_eq_true, decide_eq_true_eq]; omega) intervals
    simpa using hsort
  obtain ⟨hle, hout⟩ := gapFrom_some hsorted h
  exact ⟨hle, fun iv hiv => hout iv (List.mem_mergeSort.mpr hiv)⟩

end Intervals

/-- A literal is above `i64::MIN`. -/
theorem literalIntValue_bounds {e : LitExpr} {n : Int} (h : literalIntValue e = some n) :
    -2 ^ 63 < n ∧ n < 2 ^ 63 := by
  induction e generalizing n with
  | integer m =>
    cases h
    have := m.isLt
    omega
  | neg e ih =>
    obtain ⟨m, hm, rfl⟩ := Option.map_eq_some_iff.mp h
    have := ih hm
    omega
  | _ => cases h

/-- An interval starts above `i64::MIN`. -/
theorem intInterval_bounds {p : MatchPattern} {iv : Int × Int} (h : intInterval p = some iv) :
    i64Min < iv.1 ∧ iv.1 ≤ i64Max ∧ i64Min ≤ iv.2 := by
  unfold i64Min i64Max
  cases p with
  | literal e =>
    obtain ⟨n, hn, rfl⟩ := Option.map_eq_some_iff.mp h
    have := literalIntValue_bounds hn
    dsimp only
    omega
  | range start stop inclusive =>
    obtain ⟨lo, hlo, h⟩ := Option.bind_eq_some_iff.mp h
    obtain ⟨hi, hhi, h⟩ := Option.bind_eq_some_iff.mp h
    cases h
    have := literalIntValue_bounds hlo
    have := literalIntValue_bounds hhi
    dsimp only
    split <;> omega
  | _ => cases h

/-- `i64::MIN` is never covered. -/
theorem int_gap (patterns : List MatchPattern) :
    ∃ g, firstGap (patterns.filterMap intInterval) i64Min i64Max = some g := by
  cases h : firstGap (patterns.filterMap intInterval) i64Min i64Max with
  | some g => exact ⟨g, rfl⟩
  | none =>
    obtain ⟨iv, hmem, hiv, _⟩ := firstGap_none le_rfl h le_rfl (by decide)
    obtain ⟨p, _, hp⟩ := List.mem_filterMap.mp hmem
    have := (intInterval_bounds hp).1
    omega

/-- A pattern that matches every value of a type. -/
def Irrefutable (env : Env) (ty : Ty) (p : MatchPattern) : Prop :=
  ∀ v, HasType env ty v → matchesPattern p v = true

variable (env : Env)

mutual
/-- Variant patterns and or-patterns stand only where they match every value. -/
def Solid : Ty → MatchPattern → Prop
  | ty, .variant name inner => Irrefutable env ty (.variant name inner)
  | ty, .or alts => Irrefutable env ty (.or alts)
  | .tuple fieldTys, .tuple items => AllSolid fieldTys items
  | .struct struct, .structFields _ fields => FieldsSolid struct fields
  | _, _ => True
def AllSolid : List Ty → List MatchPattern → Prop
  | ty :: tys, p :: ps => Solid ty p ∧ AllSolid tys ps
  | _, _ => True
def FieldsSolid (struct : String) : List (String × MatchPattern) → Prop
  | [] => True
  | (name, p) :: fields =>
    (∀ fieldTy, (env.structs struct).lookup name = some fieldTy → Solid fieldTy p) ∧
      FieldsSolid struct fields
end

def ElemsIrrefutable (elem : Ty) : MatchPattern → Prop
  | .list before _ after => ∀ p ∈ before ++ after, Irrefutable env elem p
  | _ => True

def countsLength (n : Nat) (p : MatchPattern) : Prop :=
  ∃ iv, listLengthInterval p = some iv ∧ iv.1 ≤ n ∧ n ≤ iv.2

/-- Where the check relies on an arm, nothing in it fails where the check does not look: in the
elements of a list, and in the variants and or-patterns below a tuple or a struct. -/
def NothingUnseen : Ty → List MatchPattern → Prop
  | .list elem, patterns =>
    (∃ n : Nat, n ≤ i64Max ∧ ∀ p ∈ patterns, ¬countsLength n p) ∨
      ∀ n : Nat, n ≤ i64Max → ∃ p ∈ patterns, ElemsIrrefutable env elem p ∧ countsLength n p
  | ty, patterns =>
    (∃ p ∈ patterns, Irrefutable env ty p) ∨
      ∀ p ∈ patterns, armCovers env ty p = true → Solid env ty p

def isOr : MatchPattern → Bool
  | .or _ => true
  | _ => false

/-- The numbers and the lengths that or-patterns match are counted at other arms. -/
def OrsCounted : Ty → List MatchPattern → Prop
  | .int kind, patterns => ∀ p ∈ patterns, isOr p = true →
    ∀ w, matchesPattern p (.int kind w) = true →
      ∃ q ∈ patterns, ∃ iv, intInterval q = some iv ∧ iv.1 ≤ kind.number w
  | .list elem, patterns => ∀ p ∈ patterns, isOr p = true →
    ∀ items, HasType env (.list elem) (.list items) → matchesPattern p (.list items) = true →
      ∃ q ∈ patterns, countsLength items.length q
  | _, _ => True

variable {env}

theorem matchesAll_irrefutable {tys : List Ty} {ps : List MatchPattern} {vs : List Value}
    (hlen : ps.length = tys.length) (hlen' : vs.length = tys.length)
    (hps : ∀ q ∈ tys.zip ps, Irrefutable env q.1 q.2) (hvs : ∀ q ∈ tys.zip vs, HasType env q.1 q.2) :
    matchesAll ps vs = true := by
  induction tys generalizing ps vs with
  | nil =>
    rw [List.length_eq_zero_iff.mp hlen]
    rfl
  | cons ty tys ih =>
    cases ps with
    | nil => rfl
    | cons p ps =>
      cases vs with
      | nil => cases hlen'
      | cons v vs =>
        rw [List.zip_cons_cons, List.forall_mem_cons] at hps hvs
        rw [matchesAll, hps.1 v hvs.1, Bool.true_and]
        exact ih (by simpa using hlen) (by simpa using hlen') hps.2 hvs.2

/-- Patterns that match every element match any list that is long enough. -/
theorem matchesAll_elems {elem : Ty} {ps : List MatchPattern} {vs : List Value}
    (hlen : ps.length ≤ vs.length) (hps : ∀ p ∈ ps, Irrefutable env elem p)
    (hvs : ∀ v ∈ vs, HasType env elem v) : matchesAll ps vs = true := by
  induction ps generalizing vs with
  | nil => rfl
  | cons p ps ih =>
    cases vs with
    | nil => simp at hlen
    | cons v vs =>
      rw [List.forall_mem_cons] at hps hvs
      rw [matchesAll, hps.1 v hvs.1, Bool.true_and]
      exact ih (by simpa using hlen) hps.2 hvs.2

/-- The lengths of the interval of a list pattern are those it matches. -/
theorem list_matches {elem : Ty} {before after : List MatchPattern} {rest : Option String}
    {values : List Value} (hsolid : ∀ p ∈ before ++ after, Irrefutable env elem p)
    (hvalues : ∀ v ∈ values, HasType env elem v) {iv : Int × Int}
    (hiv : listLengthInterval (.list before rest after) = some iv)
    (hlo : iv.1 ≤ values.length) (hhi : values.length ≤ iv.2) :
    matchesPattern (.list before rest after) (.list values) = true := by
  cases hiv
  dsimp only at hlo hhi
  have hneeded : before.length + after.length ≤ values.length := by omega
  have hfront := matchesAll_elems (by omega)
    (fun p hp => hsolid p (List.mem_append_left _ hp)) hvalues
  have hback : matchesAll after (values.drop (values.length - after.length)) = true :=
    matchesAll_elems (by simp only [List.length_drop]; omega)
      (fun p hp => hsolid p (List.mem_append_right _ hp))
      fun v hv => hvalues v (List.mem_of_mem_drop hv)
  rw [matchesPattern, hfront, hback]
  cases rest with
  | some name => simpa using hneeded
  | none =>
    simp only [Option.isSome_none, Bool.false_eq_true, if_false] at hhi
    have hlen : values.length = before.length + after.length := by omega
    simp [hlen]

/-- A field whose pattern passes the check alone is covered. -/
theorem fullyCovered_irrefutable {ty : Ty} {p : MatchPattern} {covers : Bool}
    (hcovers : covers = true → Irrefutable env ty p) (hok : patternOk env ty p = true)
    (hsolid : Solid env ty p) (h : fullyCovered p ty covers = true) : Irrefutable env ty p := by
  unfold fullyCovered at h
  rw [Bool.or_eq_true, Bool.and_eq_true, Option.isNone_iff_eq_none] at h
  cases p with
  | wildcard => exact fun v _ => by simp [matchesPattern]
  | identifier name => exact fun v _ => by simp [matchesPattern]
  | variant name inner => cases ty <;> exact hsolid
  | or alts => cases ty <;> exact hsolid
  | literal e => simp [isTriviallyExhaustive, isLiteralOrRange] at h
  | range start stop inclusive => simp [isTriviallyExhaustive, isLiteralOrRange] at h
  | tuple items =>
    cases ty with
    | tuple fieldTys =>
      refine hcovers ?_
      by_contra hne
      simp [isTriviallyExhaustive, missing, isTuplePattern, hne] at h
    | _ => cases hok
  | structFields name fields =>
    cases ty with
    | struct struct =>
      simp only [patternOk, Bool.and_eq_true, decide_eq_true_eq] at hok
      refine hcovers ?_
      by_contra hne
      simp [isTriviallyExhaustive, missing, isStructPattern, hne, hok.1] at h
    | _ => cases hok
  | list before rest after =>
    cases ty with
    | list elem =>
      have hnone := (h.resolve_left (by simp [isTriviallyExhaustive])).1
      simp only [missing, List.filterMap_cons, listLengthInterval, List.filterMap_nil,
        List.isEmpty_cons, Bool.false_eq_true, if_false, Option.map_eq_none_iff] at hnone
      intro v hv
      cases hv with
      | @list _ items hlen hitems =>
        obtain ⟨iv, hmem, hlo, hhi⟩ := firstGap_none le_rfl hnone (n := items.length) (by omega) hlen
        obtain ⟨iv₀, hmem₀, hlo₀, _⟩ := firstGap_none le_rfl hnone (n := 0) le_rfl (by decide)
        rw [List.mem_singleton] at hmem hmem₀
        subst hmem hmem₀
        -- the empty list is covered, so no element is looked at
        have hempty : before ++ after = [] := by
          rw [← List.length_eq_zero_iff, List.length_append]
          omega
        exact list_matches (by simp [hempty]) hitems rfl hlo hhi
    | _ => cases hok

mutual
theorem armCovers_irrefutable : ∀ (ty : Ty) (p : MatchPattern), armCovers env ty p = true →
    patternOk env ty p = true → Solid env ty p → Irrefutable env ty p
  | .tuple fieldTys, .tuple items, h, hok, hsolid => by
    simp only [armCovers] at h
    split at h
    next hlen =>
      intro v hv
      cases hv with
      | tuple hlen' hitems =>
        simp only [patternOk, Bool.and_eq_true] at hok
        rw [matchesPattern]
        exact matchesAll_irrefutable hlen hlen'
          (allCovered_irrefutable fieldTys items h hok.2 hsolid) hitems
    next => cases h
  | .struct struct, .structFields name fields, h, hok, hsolid => by
    simp only [armCovers] at h
    split at h
    next hname =>
      intro v hv
      cases hv with
      | struct hfields =>
        simp only [patternOk, Bool.and_eq_true] at hok
        rw [matchesPattern]
        exact fieldsCovered_matches struct fields h hok.2 hsolid hfields
    next => cases h
  | ty, .wildcard, _, _, _ => fun v _ => by simp [matchesPattern]
  | ty, .identifier _, _, _, _ => fun v _ => by simp [matchesPattern]
  | ty, .variant _ _, h, _, _ | ty, .literal _, h, _, _ | ty, .list _ _ _, h, _, _
  | ty, .range _ _ _, h, _, _ | ty, .or _, h, _, _ => by
    cases ty <;> simp [armCovers, isTriviallyExhaustive] at h
  | .int _, .tuple _, h, _, _ | .bool, .tuple _, h, _, _ | .str, .tuple _, h, _, _
  | .list _, .tuple _, h, _, _ | .struct _, .tuple _, h, _, _ | .enum _, .tuple _, h, _, _
  | .int _, .structFields _ _, h, _, _ | .bool, .structFields _ _, h, _, _
  | .str, .structFields _ _, h, _, _ | .list _, .structFields _ _, h, _, _
  | .tuple _, .structFields _ _, h, _, _ | .enum _, .structFields _ _, h, _, _ => by
    simp [armCovers, isTriviallyExhaustive] at h
theorem allCovered_irrefutable : ∀ (tys : List Ty) (ps : List MatchPattern),
    allCovered env ps tys = true → patternsOk env tys ps = true → AllSolid env tys ps →
    ∀ q ∈ tys.zip ps, Irrefutable env q.1 q.2
  | ty :: tys, p :: ps, h, hok, hsolid => by
    simp only [allCovered, patternsOk, Bool.and_eq_true] at h hok
    rw [List.zip_cons_cons, List.forall_mem_cons]
    exact ⟨fullyCovered_irrefutable (fun hc => armCovers_irrefutable ty p hc hok.1 hsolid.1) hok.1
      hsolid.1 h.1, allCovered_irrefutable tys ps h.2 hok.2 hsolid.2⟩
  | [], _, _, _, _ => by simp
  | _ :: _, [], _, _, _ => by simp
theorem fieldsCovered_matches (struct : String) : ∀ (fields : List (String × MatchPattern)),
    fieldsCovered env struct fields = true → fieldsOk env struct fields = true →
    FieldsSolid env struct fields → ∀ {values : String → Value},
    (∀ f t, (env.structs struct).lookup f = some t → HasType env t (values f)) →
    matchesFields fields values = true
  | [], _, _, _, _, _ => rfl
  | (name, p) :: fields, h, hok, hsolid, values, hvalues => by
    simp only [fieldsCovered, fieldsOk, Bool.and_eq_true] at h hok
    cases hty : (env.structs struct).lookup name with
    | none => simp [hty] at h
    | some fieldTy =>
      simp only [hty] at h hok
      have hs := hsolid.1 fieldTy hty
      have hp := fullyCovered_irrefutable (fun hc => armCovers_irrefutable fieldTy p hc hok.1 hs)
        hok.1 hs h.1
      rw [matchesFields, hp _ (hvalues name fieldTy hty), Bool.true_and]
      exact fieldsCovered_matches struct fields h.2 hok.2 hsolid.2 hvalues
end

/-- The gap of integers starts at `i64::MIN`, below every literal and every range. -/
theorem int_gap_below {patterns : List MatchPattern} {lo hi : Int}
    (h : firstGap (patterns.filterMap intInterval) i64Min i64Max = some (lo, hi)) :
    hi ≤ i64Max ∧ ∀ p ∈ patterns, ∀ iv, intInterval p = some iv → hi < iv.1 := by
  have hlows : ∀ iv ∈ (patterns.filterMap intInterval).mergeSort fun a b => a.1 ≤ b.1,
      i64Min < iv.1 ∧ iv.1 ≤ i64Max := by
    intro iv hiv
    obtain ⟨p, _, hp⟩ := List.mem_filterMap.mp (List.mem_mergeSort.mp hiv)
    exact ⟨(intInterval_bounds hp).1, (intInterval_bounds hp).2.1⟩
  obtain ⟨_, hout⟩ := firstGap_some h
  have hstart : lo = i64Min ∧ hi ≤ i64Max := by
    unfold firstGap at h
    cases hs : (patterns.filterMap intInterval).mergeSort fun a b => a.1 ≤ b.1 with
    | nil =>
      rw [hs, gapFrom, if_pos (by decide)] at h
      cases h
      exact ⟨rfl, le_rfl⟩
    | cons iv rest =>
      obtain ⟨hfirst, hfirst'⟩ := hlows iv (hs ▸ List.mem_cons_self ..)
      rw [hs, gapFrom, if_pos hfirst] at h
      cases h
      exact ⟨rfl, by omega⟩
  refine ⟨hstart.2, fun p hp iv hiv => (hout iv (List.mem_filterMap.mpr ⟨p, hp, hiv⟩)).resolve_left ?_⟩
  have := (intInterval_bounds hiv).2.2
  omega

theorem literalWord_number (kind : IntType) {e : LitExpr} {n : Int} {w : Word}
    (hn : literalIntValue e = some n) (hw : literalWord e = some w) :
    kind.number w = n ∨ 2 ^ 63 ≤ kind.number w := by
  have hb := literalIntValue_bounds hn
  rw [literalWord, hn, Option.map_some, Option.some_inj] at hw
  subst hw
  cases kind with
  | u64 =>
    simp only [IntType.number, BitVec.toNat_ofInt]
    omega
  | _ =>
    left
    exact BitVec.toInt_ofInt_eq_self (by decide) (by omega) (by omega)

theorem IntType.number_le_number {kind : IntType} {a b : Word} (h : kind.le a b = true) :
    kind.number a ≤ kind.number b := by
  cases kind with
  | u64 => exact Int.ofNat_le.mpr (by simpa [IntType.le, BitVec.ule] using h)
  | _ => simpa [IntType.le, IntType.number, BitVec.sle] using h

/-- A literal or a range matches no number below its interval. -/
theorem le_number_of_matches {kind : IntType} {p : MatchPattern} {w : Word} {iv : Int × Int}
    (hiv : intInterval p = some iv) (h : matchesPattern p (.int kind w) = true) :
    iv.1 ≤ kind.number w ∨ 2 ^ 63 ≤ kind.number w := by
  cases p with
  | literal e =>
    obtain ⟨n, hn, rfl⟩ := Option.map_eq_some_iff.mp hiv
    have hw : literalWord e = some w := by
      cases e with
      | integer m => simpa [matchesPattern, literalMatches] using h
      | neg operand => simpa [matchesPattern, literalMatches] using h
      | _ => cases hn
    obtain heq | hbig := literalWord_number kind hn hw
    · exact .inl heq.ge
    · exact .inr hbig
  | range start stop inclusive =>
    obtain ⟨lo, hlo, hiv⟩ := Option.bind_eq_some_iff.mp hiv
    obtain ⟨hi, hhi, hiv⟩ := Option.bind_eq_some_iff.mp hiv
    cases hiv
    have hstart : literalWord start = some (BitVec.ofInt 64 lo) := by rw [literalWord, hlo]; rfl
    have hstop : literalWord stop = some (BitVec.ofInt 64 hi) := by rw [literalWord, hhi]; rfl
    simp only [matchesPattern, rangeMatches, hstart, hstop, Bool.and_eq_true] at h
    have hle := IntType.number_le_number h.1
    have hnum := literalWord_number kind hlo hstart
    dsimp only
    omega
  | _ => cases hiv

/-- What matches a number of a reported gap is a catch-all arm or an or-pattern. -/
theorem int_gap_matched {kind : IntType} {patterns : List MatchPattern} {lo hi : Int}
    (hgap : checkMissing env (.int kind) patterns = some (.ints lo hi)) {p : MatchPattern}
    (hp : p ∈ patterns) (hok : patternOk env (.int kind) p = true) {w : Word}
    (hw : kind.number w ≤ hi) (h : matchesPattern p (.int kind w) = true) :
    isTriviallyExhaustive p = true ∨ isOr p = true := by
  obtain ⟨⟨lo', hi'⟩, hfirst, heq⟩ := Option.map_eq_some_iff.mp hgap
  cases heq
  obtain ⟨hmax, hbelow⟩ := int_gap_below hfirst
  have hmissed : ∀ iv, intInterval p ≠ some iv := by
    intro iv hiv
    have hlow := hbelow p hp iv hiv
    obtain hle | hbig := le_number_of_matches hiv h
    · omega
    · unfold i64Max at hmax
      omega
  cases p with
  | wildcard => exact .inl rfl
  | identifier name => exact .inl rfl
  | or alts => exact .inr rfl
  | literal e =>
    obtain ⟨n, hn⟩ := Option.isSome_iff_exists.mp hok
    exact absurd (by rw [intInterval, hn]; rfl) (hmissed (n, n))
  | range start stop inclusive =>
    simp only [patternOk, Bool.and_eq_true, Option.isSome_iff_exists] at hok
    obtain ⟨⟨lo, hlo⟩, hi, hhi⟩ := hok
    exact absurd (by rw [intInterval, hlo, hhi]; rfl)
      (hmissed (lo, if inclusive then hi else hi - 1))
  | _ => cases hok

/-- No arm counts a length of a reported gap. -/
theorem length_gap_out {elem : Ty} {patterns : List MatchPattern} {lo hi : Int}
    (hgap : checkMissing env (.list elem) patterns = some (.lengths lo hi)) :
    ∀ p ∈ patterns, ∀ iv, listLengthInterval p = some iv → iv.2 < lo ∨ hi < iv.1 := by
  simp only [checkMissing, missing] at hgap
  split at hgap
  next => cases hgap
  next =>
    obtain ⟨g, hfirst, heq⟩ := Option.map_eq_some_iff.mp hgap
    cases heq
    exact fun p hp iv hiv => (firstGap_some hfirst).2 iv (List.mem_filterMap.mpr ⟨p, hp, hiv⟩)

/-- What matches a length of a reported gap is a catch-all arm or an or-pattern. -/
theorem length_gap_matched {elem : Ty} {patterns : List MatchPattern} {lo hi : Int}
    (hgap : checkMissing env (.list elem) patterns = some (.lengths lo hi)) {p : MatchPattern}
    (hp : p ∈ patterns) (hok : patternOk env (.list elem) p = true) {items : List Value}
    (hlen : (items.length : Int) ≤ i64Max) (hlo : lo ≤ items.length) (hhi : items.length ≤ hi)
    (h : matchesPattern p (.list items) = true) :
    isTriviallyExhaustive p = true ∨ isOr p = true := by
  cases p with
  | wildcard => exact .inl rfl
  | identifier name => exact .inl rfl
  | or alts => exact .inr rfl
  | list before rest after =>
    have hmissed := length_gap_out hgap _ hp _ rfl
    simp only [matchesPattern, Bool.and_eq_true] at h
    have hneeded := h.1.1
    cases rest <;> simp at hneeded hmissed <;> omega
  | _ => cases hok

/-- An arm of a type with parts is one of its form. -/
def hasForm : Ty → List MatchPattern → Bool
  | .int _, patterns => patterns.any fun p => (intInterval p).isSome
  | .list _, patterns => patterns.any fun p => (listLengthInterval p).isSome
  | .tuple _, patterns => patterns.any isTuplePattern
  | .struct name, patterns => patterns.any (isStructPattern name)
  | _, _ => false

/-- Arms that pass the check match every value, if nothing in them fails unseen. -/
theorem checkMissing_none {ty : Ty} {patterns : List MatchPattern}
    (hok : ∀ p ∈ patterns, patternOk env ty p = true) (hseen : NothingUnseen env ty patterns)
    (hform : hasForm ty patterns = true) (h : checkMissing env ty patterns = none) {v : Value}
    (hv : HasType env ty v) : ∃ p ∈ patterns, matchesPattern p v = true := by
  have hparts : patterns.any (armCovers env ty) = true →
      ((∃ p ∈ patterns, Irrefutable env ty p) ∨
        ∀ p ∈ patterns, armCovers env ty p = true → Solid env ty p) →
      ∃ p ∈ patterns, matchesPattern p v = true := by
    intro hany hseen
    obtain ⟨p, hp, hirr⟩ | hsolid := hseen
    · exact ⟨p, hp, hirr v hv⟩
    · obtain ⟨p, hp, hc⟩ := List.any_eq_true.mp hany
      exact ⟨p, hp, armCovers_irrefutable ty p hc (hok p hp) (hsolid p hp hc) v hv⟩
  cases ty with
  | int kind =>
    obtain ⟨g, hg⟩ := int_gap patterns
    simp [checkMissing, missing, hg] at h
  | list elem =>
    cases hv with
    | @list _ items hlen hitems =>
      have hcounted : ∀ n : Nat, n ≤ i64Max → ∃ p ∈ patterns, countsLength n p := by
        intro n hn
        simp only [checkMissing, missing] at h
        split at h
        next hempty =>
          obtain ⟨p, hp, hiv⟩ := List.any_eq_true.mp hform
          obtain ⟨iv, hiv⟩ := Option.isSome_iff_exists.mp hiv
          have hmem := List.mem_filterMap.mpr ⟨p, hp, hiv⟩
          rw [List.isEmpty_iff.mp hempty] at hmem
          cases hmem
        next =>
          obtain ⟨iv, hmem, hlo, hhi⟩ := firstGap_none le_rfl (Option.map_eq_none_iff.mp h)
            (n := n) (by omega) hn
          obtain ⟨p, hp, hiv⟩ := List.mem_filterMap.mp hmem
          exact ⟨p, hp, iv, hiv, hlo, hhi⟩
      obtain ⟨n, hn, hout⟩ | hsolid := hseen
      · obtain ⟨p, hp, hcount⟩ := hcounted n hn
        exact absurd hcount (hout p hp)
      · obtain ⟨p, hp, helems, iv, hiv, hlo, hhi⟩ := hsolid items.length hlen
        cases p with
        | list before rest after => exact ⟨_, hp, list_matches helems hitems hiv hlo hhi⟩
        | _ => cases hiv
  | tuple fields =>
    simp only [hasForm] at hform
    simp only [checkMissing, missing, hform] at h
    refine hparts ?_ hseen
    by_contra hne
    simp [hne] at h
  | struct name =>
    simp only [hasForm] at hform
    simp only [checkMissing, missing, hform] at h
    refine hparts ?_ hseen
    by_contra hne
    simp [hne] at h
  | _ => cases hform

/-- An accepted match is complete, and nothing in a reported gap is matched. -/
structure ChecksOut (env : Env) (ty : Ty) (patterns : List MatchPattern) : Prop where
  complete : hasForm ty patterns = true → checkNewFormExhaustiveness env ty patterns = none →
    ∀ v, HasType env ty v → ∃ p ∈ patterns, matchesPattern p v = true
  ints : ∀ kind lo hi, ty = .int kind → checkMissing env ty patterns = some (.ints lo hi) →
    ∀ w, kind.fits w → lo ≤ kind.number w → kind.number w ≤ hi →
    ∀ p ∈ patterns, matchesPattern p (.int kind w) = false
  lengths : ∀ elem lo hi, ty = .list elem → checkMissing env ty patterns = some (.lengths lo hi) →
    ∀ items, HasType env (.list elem) (.list items) → lo ≤ items.length → items.length ≤ hi →
    ∀ p ∈ patterns, matchesPattern p (.list items) = false

def noTypes : Env := ⟨fun _ => [], fun _ => []⟩

/-- The arms `[]` and `[x, *rest]`. -/
def consArms : List MatchPattern :=
  [.list [] none [], .list [.identifier "x"] (some "rest") []]

/-- The arms `[]` and `[1, *rest]`. -/
def oneArms : List MatchPattern :=
  [.list [] none [], .list [.literal (.integer 1)] (some "rest") []]

end Exhaustiveness

end Olive
