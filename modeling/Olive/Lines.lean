import Mathlib.Algebra.BigOperators.Group.List.Basic
import Mathlib.Algebra.GroupWithZero.Nat
import Mathlib.Data.List.Count
import Mathlib.Data.List.Induction
import Mathlib.Data.List.TakeWhile

/-! Lists whose elements of one kind end lines, and the places between the elements: the line, and
the width of what stands before the place on its line. -/

namespace Lines

variable {α : Type} (isBreak : α → Bool) (width : α → Nat)

def widths (xs : List α) : Nat := (xs.map width).sum

def next (p : Nat × Nat) (a : α) : Nat × Nat :=
  if isBreak a then (p.1 + 1, 0) else (p.1, p.2 + width a)

/-- The place behind the elements. -/
def after (xs : List α) : Nat × Nat := xs.foldl (next isBreak width) (0, 0)

def Before (p q : Nat × Nat) : Prop := p.1 < q.1 ∨ p.1 = q.1 ∧ p.2 < q.2

/-- Line `l` stands between what is before it and what is behind it, its break included. -/
structure LineAt (xs : List α) (l : Nat) (pre line post : List α) : Prop where
  eq : xs = pre ++ (line ++ post)
  breaks : pre.countP isBreak = l
  pre_end : pre = [] ∨ ∃ init a, pre = init ++ [a] ∧ isBreak a = true
  plain : ∀ a ∈ line, isBreak a = false
  post_start : post = [] ∨ ∃ a tail, post = a :: tail ∧ isBreak a = true

variable {isBreak width} {xs ys pre line post : List α} {l : Nat} {a : α}

theorem Before.trans {p q r : Nat × Nat} (h : Before p q) (h' : Before q r) : Before p r := by
  rcases h with h | ⟨he, h⟩
  · rcases h' with h' | ⟨he', -⟩
    · exact .inl (h.trans h')
    · exact .inl (he' ▸ h)
  · rcases h' with h' | ⟨he', h'⟩
    · exact .inl (he ▸ h')
    · exact .inr ⟨he.trans he', h.trans h'⟩

theorem after_append : after isBreak width (xs ++ ys) =
    ys.foldl (next isBreak width) (after isBreak width xs) := List.foldl_append

theorem before_next (hpos : 0 < width a) (p : Nat × Nat) : Before p (next isBreak width p a) := by
  unfold next
  split
  · exact .inl (Nat.lt_succ_self _)
  · exact .inr ⟨rfl, Nat.lt_add_of_pos_right hpos⟩

/-- Each further element moves the place on. -/
theorem after_before (hpos : ∀ a, 0 < width a) (hne : ys ≠ []) :
    Before (after isBreak width xs) (after isBreak width (xs ++ ys)) := by
  induction ys using List.reverseRecOn with
  | nil => exact absurd rfl hne
  | append_singleton ys a ih =>
    have hlast : Before (after isBreak width (xs ++ ys)) (after isBreak width (xs ++ (ys ++ [a]))) := by
      have hstep : after isBreak width (xs ++ ys ++ [a]) =
          next isBreak width (after isBreak width (xs ++ ys)) a := after_append
      rw [← List.append_assoc, hstep]
      exact before_next (hpos a) _
    by_cases hys : ys = []
    · subst hys
      rwa [List.append_nil] at hlast
    · exact (ih hys).trans hlast

theorem foldl_plain (h : ∀ a ∈ ys, isBreak a = false) (p : Nat × Nat) :
    ys.foldl (next isBreak width) p = (p.1, p.2 + widths width ys) := by
  induction ys generalizing p with
  | nil => rfl
  | cons a ys ih =>
    have ha : next isBreak width p a = (p.1, p.2 + width a) :=
      if_neg (Bool.eq_false_iff.mp (h a List.mem_cons_self))
    have hsum : widths width (a :: ys) = width a + widths width ys := List.sum_cons
    rw [List.foldl_cons, ha, ih fun b hb => h b (List.mem_cons_of_mem a hb), hsum, ← Nat.add_assoc]

theorem widths_take_lt (hpos : ∀ a, 0 < width a) {i j : Nat} (hij : i < j) (hj : j ≤ xs.length) :
    widths width (xs.take i) < widths width (xs.take j) := by
  have hi : i < xs.length := Nat.lt_of_lt_of_le hij hj
  have hmore : xs.take j = xs.take i ++ (xs.drop i).take (j - i) := by
    rw [← List.take_add, Nat.add_sub_cancel' hij.le]
  obtain ⟨n, hn⟩ := Nat.exists_eq_add_of_lt hij
  have hnext : (xs.drop i).take (j - i) = xs[i] :: (xs.drop (i + 1)).take n := by
    rw [List.drop_eq_getElem_cons hi, show j - i = n + 1 by omega, List.take_succ_cons]
  have hgrow : widths width (xs.take j) =
      widths width (xs.take i) + (width xs[i] + widths width ((xs.drop (i + 1)).take n)) := by
    rw [hmore, hnext, widths, List.map_append, List.sum_append, List.map_cons, List.sum_cons]
    rfl
  have hpositive := hpos xs[i]
  omega

theorem after_line (xs : List α) : (after isBreak width xs).1 = xs.countP isBreak := by
  induction xs using List.reverseRecOn with
  | nil => rfl
  | append_singleton xs a ih =>
    rw [after_append, List.countP_append, ← ih, List.foldl_cons, List.foldl_nil, next, List.countP_singleton]
    split
    · rfl
    · rfl

theorem after_le (hpos : ∀ a, 0 < width a) (xs : List α) :
    (after isBreak width xs).1 + (after isBreak width xs).2 ≤ widths width xs := by
  induction xs using List.reverseRecOn with
  | nil => exact Nat.le_refl 0
  | append_singleton xs a ih =>
    have hsum : widths width (xs ++ [a]) = widths width xs + width a := by
      rw [widths, List.map_append, List.sum_append]
      exact congrArg _ List.sum_singleton
    have hone := hpos a
    rw [after_append, List.foldl_cons, List.foldl_nil, next, hsum]
    split
    · simp only
      omega
    · simp only
      omega

theorem widths_take_le (xs : List α) (i : Nat) : widths width (xs.take i) ≤ widths width xs := by
  have hsplit : widths width xs = widths width (xs.take i) + widths width (xs.drop i) := by
    rw [widths, widths, widths, ← List.sum_append, ← List.map_append, List.take_append_drop]
  rw [hsplit]
  exact Nat.le_add_right _ _

theorem countP_plain (h : ∀ a ∈ ys, isBreak a = false) : ys.countP isBreak = 0 :=
  List.countP_eq_zero.mpr fun a ha => Bool.eq_false_iff.mp (h a ha)

/-- Every line is somewhere. -/
theorem exists_lineAt (h : l ≤ xs.countP isBreak) : ∃ pre line post, LineAt isBreak xs l pre line post := by
  induction l generalizing xs with
  | zero =>
    refine ⟨[], xs.takeWhile fun a => !isBreak a, xs.dropWhile fun a => !isBreak a,
      List.takeWhile_append_dropWhile.symm, rfl, .inl rfl, fun a ha => ?_, ?_⟩
    · simpa using List.mem_takeWhile_imp ha
    · cases hdrop : xs.dropWhile fun a => !isBreak a with
      | nil => exact .inl rfl
      | cons a tail =>
        have hhead := List.head?_dropWhile_not (fun a => !isBreak a) xs
        rw [hdrop] at hhead
        exact .inr ⟨a, tail, rfl, by simpa using hhead⟩
  | succ l ih =>
    have hsplit : xs.takeWhile (fun a => !isBreak a) ++ xs.dropWhile (fun a => !isBreak a) = xs :=
      List.takeWhile_append_dropWhile
    have hplain : ∀ a ∈ xs.takeWhile fun a => !isBreak a, isBreak a = false := fun a ha => by
      simpa using List.mem_takeWhile_imp ha
    have hcount : xs.countP isBreak = (xs.dropWhile fun a => !isBreak a).countP isBreak := by
      rw [← hsplit, List.countP_append, countP_plain hplain, Nat.zero_add, hsplit]
    cases hdrop : xs.dropWhile fun a => !isBreak a with
    | nil =>
      rw [hcount, hdrop] at h
      exact absurd h (Nat.not_succ_le_zero l)
    | cons a tail =>
      have hbreak : isBreak a = true := by
        have hhead := List.head?_dropWhile_not (fun a => !isBreak a) xs
        rw [hdrop] at hhead
        simpa using hhead
      rw [hcount, hdrop, List.countP_cons_of_pos hbreak] at h
      obtain ⟨pre, line, post, hline⟩ := ih (Nat.le_of_succ_le_succ h)
      refine ⟨xs.takeWhile (fun a => !isBreak a) ++ a :: pre, line, post, ?_, ?_, .inr ?_, hline.plain,
        hline.post_start⟩
      · rw [List.append_assoc, List.cons_append, ← hline.eq, ← hdrop, hsplit]
      · rw [List.countP_append, countP_plain hplain, List.countP_cons_of_pos hbreak, hline.breaks,
          Nat.zero_add]
      · rcases hline.pre_end with rfl | ⟨init, b, rfl, hb⟩
        · exact ⟨_, a, rfl, hbreak⟩
        · exact ⟨_ ++ a :: init, b, by rw [List.append_assoc]; rfl, hb⟩

namespace LineAt

theorem after_pre (h : LineAt isBreak xs l pre line post) : after isBreak width pre = (l, 0) := by
  refine Prod.ext ((after_line pre).trans h.breaks) ?_
  rcases h.pre_end with rfl | ⟨init, a, rfl, ha⟩
  · rfl
  · rw [after_append, List.foldl_cons, List.foldl_nil, next, if_pos ha]

theorem take (h : LineAt isBreak xs l pre line post) {j : Nat} (hj : j ≤ line.length) :
    xs.take (pre.length + j) = pre ++ line.take j := by
  rw [h.eq, List.take_length_add_append, List.take_append_of_le_length hj]

theorem after_take (h : LineAt isBreak xs l pre line post) {j : Nat} (hj : j ≤ line.length) :
    after isBreak width (xs.take (pre.length + j)) = (l, widths width (line.take j)) := by
  rw [h.take hj, after_append, h.after_pre, foldl_plain fun a ha => h.plain a (List.mem_of_mem_take ha),
    Nat.zero_add]

/-- The places with `l` breaks before them are those of line `l`. -/
theorem place (h : LineAt isBreak xs l pre line post) {o : Nat} (ho : o ≤ xs.length)
    (hcount : (xs.take o).countP isBreak = l) : ∃ j ≤ line.length, o = pre.length + j := by
  have hlow : pre.length ≤ o := by
    by_contra hlt
    rcases h.pre_end with rfl | ⟨init, a, rfl, ha⟩
    · exact hlt (Nat.zero_le o)
    · have hle : o ≤ init.length := by
        rw [List.length_append, List.length_singleton] at hlt
        exact Nat.le_of_lt_succ (Nat.lt_of_not_le hlt)
      have htake : xs.take o <+: init := by
        rw [h.eq, List.append_assoc, List.take_append_of_le_length hle]
        exact List.take_prefix o init
      have hfew := htake.sublist.countP_le (p := isBreak)
      have hbreaks := h.breaks
      rw [List.countP_append, List.countP_singleton, ha] at hbreaks
      rw [hcount, ← hbreaks] at hfew
      exact Nat.not_succ_le_self _ hfew
  refine ⟨o - pre.length, ?_, (Nat.add_sub_cancel' hlow).symm⟩
  by_contra hgt
  rcases h.post_start with rfl | ⟨a, tail, rfl, ha⟩
  · rw [h.eq, List.append_nil, List.length_append] at ho
    exact hgt (Nat.sub_le_iff_le_add'.mpr ho)
  · have hlt : pre.length + line.length + 1 ≤ o := by omega
    have hprefix : pre ++ (line ++ [a]) <+: xs.take o := by
      refine List.prefix_take_iff.mpr ⟨⟨tail, ?_⟩, ?_⟩
      · rw [h.eq, List.append_assoc, List.append_assoc]
        rfl
      · simp only [List.length_append, List.length_singleton]
        exact hlt
    have hmany := hprefix.sublist.countP_le (p := isBreak)
    rw [hcount, List.countP_append, h.breaks, List.countP_append, List.countP_singleton, ha] at hmany
    exact absurd hmany (by simp)

end LineAt

end Lines
