import Mathlib.Data.Nat.Find
import Mathlib.Logic.Function.Iterate

/-! Trees given by a function to the parent, and the search for the nearest common ancestor that walks
up from the deeper of two nodes, by a rank that falls on the way up. -/

namespace MeetTree

variable {V : Type}

/-- `y` is `x`, or on the way up from it. -/
def Above (up : V → V) (x y : V) : Prop :=
  ∃ k, up^[k] x = y

section Above

variable {up : V → V} {x y z : V}

theorem Above.refl (x : V) : Above up x x :=
  ⟨0, rfl⟩

theorem Above.trans (h : Above up x y) (h' : Above up y z) : Above up x z := by
  obtain ⟨k, rfl⟩ := h
  obtain ⟨m, rfl⟩ := h'
  exact ⟨m + k, Function.iterate_add_apply up m k x⟩

theorem above_up (x : V) : Above up x (up x) :=
  ⟨1, rfl⟩

theorem above_iff : Above up x y ↔ x = y ∨ Above up (up x) y := by
  constructor
  · rintro ⟨k, rfl⟩
    cases k with
    | zero => exact .inl rfl
    | succ k => exact .inr ⟨k, rfl⟩
  · rintro (rfl | h)
    · exact .refl x
    · exact (above_up x).trans h

theorem above_iff_of_fixed (h : up x = x) : Above up x y ↔ y = x := by
  constructor
  · rintro ⟨k, rfl⟩
    exact Function.iterate_fixed h k
  · rintro rfl
    exact .refl y

theorem Above.linear (h : Above up x y) (h' : Above up x z) : Above up y z ∨ Above up z y := by
  obtain ⟨k, rfl⟩ := h
  obtain ⟨m, rfl⟩ := h'
  rcases Nat.le_total k m with hle | hle
  · left
    exact ⟨m - k, by rw [← Function.iterate_add_apply, Nat.sub_add_cancel hle]⟩
  · right
    exact ⟨k - m, by rw [← Function.iterate_add_apply, Nat.sub_add_cancel hle]⟩

end Above

/-- On the nodes of `S`, the way up ends at `root`, and the rank falls until then. -/
structure Climbs (S : V → Prop) (up : V → V) (rank : V → Nat) (root : V) : Prop where
  up_root : up root = root
  up_mem : ∀ x, S x → S (up x)
  falls : ∀ x, S x → x ≠ root → rank (up x) < rank x

section Climbs

variable {S : V → Prop} {up : V → V} {rank : V → Nat} {root x y : V}

theorem Climbs.mem_of_above (hc : Climbs S up rank root) (hx : S x) (h : Above up x y) : S y := by
  obtain ⟨k, rfl⟩ := h
  induction k generalizing x with
  | zero => exact hx
  | succ k ih => exact ih (hc.up_mem x hx)

theorem Climbs.above_root_iff (hc : Climbs S up rank root) : Above up root y ↔ y = root :=
  above_iff_of_fixed hc.up_root

theorem Climbs.rank_le (hc : Climbs S up rank root) (hx : S x) (h : Above up x y) :
    rank y ≤ rank x := by
  obtain ⟨k, rfl⟩ := h
  induction k generalizing x with
  | zero => exact Nat.le_refl _
  | succ k ih =>
    have hk := ih (hc.up_mem x hx)
    by_cases hroot : x = root
    · rw [hroot, Function.iterate_fixed hc.up_root]
    · have := hc.falls x hx hroot
      exact Nat.le_trans hk (Nat.le_of_lt this)

theorem Climbs.rank_lt (hc : Climbs S up rank root) (hx : S x) (h : Above up x y) (hne : x ≠ y) :
    rank y < rank x := by
  rcases above_iff.mp h with heq | h
  · exact absurd heq hne
  · have hroot : x ≠ root := by
      rintro rfl
      rw [hc.up_root] at h
      exact hne (hc.above_root_iff.mp h).symm
    exact Nat.lt_of_le_of_lt (hc.rank_le (hc.up_mem x hx) h) (hc.falls x hx hroot)

theorem Climbs.above_root (hc : Climbs S up rank root) (hx : S x) : Above up x root := by
  induction hr : rank x using Nat.strong_induction_on generalizing x with
  | _ r ih =>
    by_cases hroot : x = root
    · rw [hroot]
      exact .refl root
    · have hlt := hc.falls x hx hroot
      exact (above_up x).trans (ih _ (hr ▸ hlt) (hc.up_mem x hx) rfl)

/-- Between a node and one above it, of those that the way up passes the lower has the greater
rank. -/
theorem Climbs.above_of_rank_le (hc : Climbs S up rank root) {z : V} (hx : S x) (hy : Above up x y)
    (hz : Above up x z) (h : rank z ≤ rank y) : Above up y z := by
  rcases hy.linear hz with hyz | hzy
  · exact hyz
  · by_cases heq : z = y
    · rw [heq]
      exact .refl y
    · have := hc.rank_lt (hc.mem_of_above hx hz) hzy heq
      omega

theorem Climbs.ne_root (hc : Climbs S up rank root) {x y : V} (hy : S y) (h : rank y < rank x) :
    x ≠ root := by
  rintro rfl
  have := hc.rank_le hy (hc.above_root hy)
  omega

/-- What is above both nodes is above the parent of the deeper one. -/
theorem Climbs.above_up_of_lt (hc : Climbs S up rank root) {a b y : V} (hb : S b)
    (h : rank b < rank a) (hay : Above up a y) (hby : Above up b y) : Above up (up a) y := by
  have hle := hc.rank_le hb hby
  refine (above_iff.mp hay).resolve_left ?_
  rintro rfl
  omega

end Climbs

section Meet

/-- `r` is the nearest of the nodes above every one of `xs`. -/
structure IsMeet (up : V → V) (xs : List V) (r : V) : Prop where
  above : ∀ x ∈ xs, Above up x r
  nearest : ∀ y, (∀ x ∈ xs, Above up x y) → Above up r y

theorem isMeet_singleton {up : V → V} (a : V) : IsMeet up [a] a where
  above x hx := by
    rw [List.mem_singleton.mp hx]
    exact .refl a
  nearest y hy := hy a List.mem_cons_self

variable [DecidableEq V]

/-- Walks up from the node of the greater rank until the two are one, in `fuel` steps. -/
def meet (up : V → V) (rank : V → Nat) : Nat → V → V → Option V
  | 0, a, b => if a = b then some a else none
  | fuel + 1, a, b =>
    if a = b then some a
    else if rank a > rank b then meet up rank fuel (up a) b
    else if rank b > rank a then meet up rank fuel a (up b)
    else none

variable {S : V → Prop} {up : V → V} {rank : V → Nat} {root : V}

theorem meet_self (fuel : Nat) (a : V) : meet up rank fuel a a = some a := by
  cases fuel <;> exact if_pos rfl

theorem Climbs.meet_nearest (hc : Climbs S up rank root)
    (hinj : ∀ x y, S x → S y → rank x = rank y → x = y) {a b : V} (ha : S a) (hb : S b) {fuel : Nat}
    (hfuel : rank a + rank b ≤ fuel) :
    ∃ r, meet up rank fuel a b = some r ∧ Above up a r ∧ Above up b r ∧
      ∀ y, Above up a y → Above up b y → Above up r y := by
  induction fuel generalizing a b with
  | zero =>
    obtain rfl := hinj a b ha hb (by omega)
    exact ⟨a, meet_self 0 a, .refl a, .refl a, fun _ h _ => h⟩
  | succ fuel ih =>
    by_cases heq : a = b
    · subst heq
      exact ⟨a, meet_self _ a, .refl a, .refl a, fun _ h _ => h⟩
    · unfold meet
      rw [if_neg heq]
      by_cases hab : rank a > rank b
      · have hfalls := hc.falls a ha (hc.ne_root hb hab)
        obtain ⟨r, hr, har, hbr, hnear⟩ := ih (hc.up_mem a ha) hb (by omega)
        rw [if_pos hab]
        exact ⟨r, hr, (above_up a).trans har, hbr,
          fun y hay hby => hnear y (hc.above_up_of_lt hb hab hay hby) hby⟩
      · have hba : rank b > rank a := by
          by_contra hle
          exact heq (hinj a b ha hb (by omega))
        have hfalls := hc.falls b hb (hc.ne_root ha hba)
        obtain ⟨r, hr, har, hbr, hnear⟩ := ih ha (hc.up_mem b hb) (by omega)
        rw [if_neg hab, if_pos hba]
        exact ⟨r, hr, har, (above_up b).trans hbr,
          fun y hay hby => hnear y hay (hc.above_up_of_lt ha hba hby hay)⟩

/-- The meet of several nodes, by pairs from the left. -/
theorem Climbs.meets_isMeet (hc : Climbs S up rank root)
    (hinj : ∀ x y, S x → S y → rank x = rank y → x = y) {bound fuel : Nat}
    (hbound : ∀ x, S x → rank x ≤ bound) (hfuel : 2 * bound ≤ fuel) {rest : List V} {first : V}
    (hfirst : S first) (hrest : ∀ x ∈ rest, S x) :
    ∃ r, rest.foldlM (meet up rank fuel) first = some r ∧ IsMeet up (first :: rest) r := by
  induction rest generalizing first with
  | nil => exact ⟨first, rfl, isMeet_singleton first⟩
  | cons x rest ih =>
    have hx := hrest x List.mem_cons_self
    have h1 := hbound first hfirst
    have h2 := hbound x hx
    obtain ⟨m, hm, hfm, hxm, hnear⟩ :=
      hc.meet_nearest hinj hfirst hx (show rank first + rank x ≤ fuel by omega)
    obtain ⟨r, hr, hmeet⟩ := ih (hc.mem_of_above hfirst hfm)
      fun y hy => hrest y (List.mem_cons_of_mem _ hy)
    have hmr := hmeet.above m List.mem_cons_self
    refine ⟨r, ?_, ?_, ?_⟩
    · rw [List.foldlM_cons, hm]
      exact hr
    · intro y hy
      rcases List.mem_cons.mp hy with rfl | hy
      · exact hfm.trans hmr
      · rcases List.mem_cons.mp hy with rfl | hy
        · exact hxm.trans hmr
        · exact hmeet.above y (List.mem_cons_of_mem _ hy)
    · intro y hy
      apply hmeet.nearest
      intro z hz
      rcases List.mem_cons.mp hz with rfl | hz
      · exact hnear y (hy first List.mem_cons_self) (hy x (List.mem_cons_of_mem _ List.mem_cons_self))
      · exact hy z (List.mem_cons_of_mem _ (List.mem_cons_of_mem _ hz))

end Meet

end MeetTree
