import Mathlib.Algebra.GroupWithZero.Nat
import Mathlib.Data.Int.Cast.Basic
import Mathlib.Data.List.Forall2
import Mathlib.Data.List.Induction

/-! The formatter's layout engine: documents, the renderer's loop over a stack, and what it decides
of each group. -/

namespace Olive

namespace Fmt

/-- The structure of an output: where its lines may break, and how far they are indented. -/
inductive Doc
  | nil
  | text (s : List Char)
  /-- A space where the group is flat, a newline where it is broken. -/
  | line
  /-- Nothing where the group is flat, a newline where it is broken. -/
  | softLine
  | hardLine
  | concat (a b : Doc)
  | nest (n : Nat) (d : Doc)
  | group (d : Doc)
  | ifBreak (broken flat : Doc)
  deriving DecidableEq, Repr

def indentStep : Nat := 4

namespace Doc

/-- `concat`, which leaves out an empty side. -/
def cat : Doc → Doc → Doc
  | .nil, b => b
  | a, .nil => a
  | a, b => .concat a b

def catAll (docs : List Doc) : Doc := docs.foldl cat .nil

def join (sep : Doc) (docs : List Doc) : Doc :=
  (docs.foldl (fun acc d => (cat (if 0 < acc.2 then cat acc.1 sep else acc.1) d, acc.2 + 1))
    (Doc.nil, 0)).1

/-- A list between brackets: on one line, or an item a line with a comma after each. -/
def bracketed (opening : List Char) (items : List Doc) (closing : List Char) : Doc :=
  if items.isEmpty then cat (.text opening) (.text closing)
  else
    let sep := cat (.text [',']) .line
    let inner := cat .softLine (join sep items)
    .group (catAll [.text opening, .nest indentStep (cat inner (.ifBreak (.text [',']) .nil)),
      .softLine, .text closing])

end Doc

inductive Mode
  | flat
  | broken
  deriving DecidableEq, Repr

def Mode.choose : Mode → Doc → Doc → Doc
  | .flat, _, d => d
  | .broken, d, _ => d

structure Item where
  indent : Nat
  mode : Mode
  doc : Doc
  deriving DecidableEq, Repr

def Doc.size : Doc → Nat
  | .concat a b | .ifBreak a b => a.size + b.size + 1
  | .nest _ d | .group d => d.size + 1
  | _ => 1

def stackSize (stack : List Item) : Nat := (stack.map (·.doc.size)).sum

theorem Doc.size_pos (d : Doc) : 0 < d.size := by
  cases d <;> simp [size]

theorem Mode.choose_size (m : Mode) (broken flat : Doc) :
    (m.choose broken flat).size ≤ broken.size + flat.size := by
  cases m <;> simp [choose]

@[simp] theorem stackSize_cons (it : Item) (stack : List Item) :
    stackSize (it :: stack) = it.doc.size + stackSize stack := by
  simp [stackSize]

/-- Does the stack, whose first item is laid flat for a try, fit into the columns that remain, up to
its first newline? -/
def fits (remaining : Int) (stack : List Item) : Bool :=
  if remaining < 0 then false
  else
    match stack with
    | [] => true
    | ⟨i, m, d⟩ :: rest =>
      match d with
      | .nil => fits remaining rest
      | .text s => fits (remaining - s.length) rest
      | .concat a b => fits remaining (⟨i, m, a⟩ :: ⟨i, m, b⟩ :: rest)
      | .nest n d => fits remaining (⟨i + n, m, d⟩ :: rest)
      | .group d => fits remaining (⟨i, .flat, d⟩ :: rest)
      | .line => if m = .flat then fits (remaining - 1) rest else true
      | .softLine => if m = .broken then true else fits remaining rest
      | .hardLine => if m = .flat then false else true
      | .ifBreak broken flat => fits remaining (⟨i, m, m.choose broken flat⟩ :: rest)
termination_by stackSize stack
decreasing_by
  all_goals simp only [stackSize_cons, Doc.size]
  all_goals grind [Mode.choose_size]

def newline (indent : Nat) : List Char := '\n' :: List.replicate indent ' '

/-- `render`'s loop: what it has written, the column it is at, and the stack. -/
def renderLoop (width : Nat) (out : List Char) (col : Nat) (stack : List Item) : List Char :=
  match stack with
  | [] => out
  | ⟨i, m, d⟩ :: rest =>
    match d with
    | .nil => renderLoop width out col rest
    | .text s => renderLoop width (out ++ s) (col + s.length) rest
    | .concat a b => renderLoop width out col (⟨i, m, a⟩ :: ⟨i, m, b⟩ :: rest)
    | .nest n d => renderLoop width out col (⟨i + n, m, d⟩ :: rest)
    | .line =>
      if m = .flat then renderLoop width (out ++ [' ']) (col + 1) rest
      else renderLoop width (out ++ newline i) i rest
    | .softLine =>
      if m = .broken then renderLoop width (out ++ newline i) i rest
      else renderLoop width out col rest
    | .hardLine => renderLoop width (out ++ newline i) i rest
    | .ifBreak broken flat =>
      renderLoop width out col (⟨i, m, m.choose broken flat⟩ :: rest)
    | .group d =>
      renderLoop width out col
        (⟨i, if fits (width - col) (⟨i, .flat, d⟩ :: rest) then .flat else .broken, d⟩ :: rest)
termination_by stackSize stack
decreasing_by
  all_goals simp only [stackSize_cons, Doc.size]
  all_goals grind [Mode.choose_size]

def render (doc : Doc) (width : Nat) : List Char := renderLoop width [] 0 [⟨0, .broken, doc⟩]

/-- What comes before the next newline: so many columns and no newline at all, so many columns and
then a newline, or a hard newline within a flat group. -/
inductive Ahead
  | runsOn (cols : Nat)
  | ends (cols : Nat)
  | never
  deriving DecidableEq, Repr

def Ahead.andThen : Ahead → Ahead → Ahead
  | .runsOn a, .runsOn b => .runsOn (a + b)
  | .runsOn a, .ends b => .ends (a + b)
  | .runsOn _, .never => .never
  | x, _ => x

def ahead : Mode → Doc → Ahead
  | _, .nil => .runsOn 0
  | _, .text s => .runsOn s.length
  | .flat, .line => .runsOn 1
  | .flat, .softLine => .runsOn 0
  | .flat, .hardLine => .never
  | .broken, .line | .broken, .softLine | .broken, .hardLine => .ends 0
  | m, .concat a b => (ahead m a).andThen (ahead m b)
  | m, .nest _ d => ahead m d
  | _, .group d => ahead .flat d
  | .flat, .ifBreak _ flat => ahead .flat flat
  | .broken, .ifBreak broken _ => ahead .broken broken

def aheadStack (stack : List Item) : Ahead :=
  stack.foldr (fun it after => (ahead it.mode it.doc).andThen after) (.runsOn 0)

/-- The columns up to the newline, or to the end, are at most `remaining`. -/
def Ahead.FitsIn (remaining : Int) : Ahead → Prop
  | .runsOn cols | .ends cols => cols ≤ remaining
  | .never => False

instance (remaining : Int) : (x : Ahead) → Decidable (x.FitsIn remaining)
  | .runsOn cols | .ends cols => inferInstanceAs (Decidable ((cols : Int) ≤ remaining))
  | .never => inferInstanceAs (Decidable False)

theorem Ahead.runsOn_zero (x : Ahead) : (Ahead.runsOn 0).andThen x = x := by
  cases x <;> simp [andThen]

theorem Ahead.andThen_assoc (x y z : Ahead) :
    (x.andThen y).andThen z = x.andThen (y.andThen z) := by
  cases x <;> cases y <;> cases z <;> simp [andThen, Nat.add_assoc]

theorem Ahead.fitsIn_runsOn {remaining : Int} {cols : Nat} {x : Ahead} :
    ((Ahead.runsOn cols).andThen x).FitsIn remaining ↔ x.FitsIn (remaining - cols) := by
  cases x with
  | runsOn b | ends b =>
    simp only [andThen, FitsIn]
    push_cast
    omega
  | never => simp [andThen, FitsIn]

theorem Ahead.not_fitsIn {remaining : Int} (h : remaining < 0) (x : Ahead) :
    ¬ x.FitsIn remaining := by
  cases x with
  | runsOn cols | ends cols =>
    simp only [FitsIn]
    omega
  | never => exact id

theorem aheadStack_cons (i : Nat) (m : Mode) (d : Doc) (rest : List Item) :
    aheadStack (⟨i, m, d⟩ :: rest) = (ahead m d).andThen (aheadStack rest) := rfl

@[simp] theorem ahead_nil (m : Mode) : ahead m .nil = .runsOn 0 := by
  cases m <;> rfl

@[simp] theorem ahead_text (m : Mode) (s : List Char) : ahead m (.text s) = .runsOn s.length := by
  cases m <;> rfl

@[simp] theorem ahead_concat (m : Mode) (a b : Doc) :
    ahead m (.concat a b) = (ahead m a).andThen (ahead m b) := by
  cases m <;> rfl

@[simp] theorem ahead_nest (m : Mode) (n : Nat) (d : Doc) : ahead m (.nest n d) = ahead m d := by
  cases m <;> rfl

@[simp] theorem ahead_group (m : Mode) (d : Doc) : ahead m (.group d) = ahead .flat d := by
  cases m <;> rfl

theorem ahead_ifBreak (m : Mode) (broken flat : Doc) :
    ahead m (.ifBreak broken flat) = ahead m (m.choose broken flat) := by
  cases m <;> rfl

/-- The scan for the next newline finds what is ahead. -/
theorem fits_iff (remaining : Int) (stack : List Item) :
    fits remaining stack = true ↔ (aheadStack stack).FitsIn remaining := by
  fun_induction fits remaining stack with
  | case1 remaining stack h => simpa using Ahead.not_fitsIn h _
  | case2 remaining h =>
    have hnonneg : (0 : Int) ≤ remaining := by omega
    simpa [aheadStack, Ahead.FitsIn] using hnonneg
  | case3 remaining h i m rest ih => rw [ih, aheadStack_cons, ahead_nil, Ahead.runsOn_zero]
  | case4 remaining h i m rest s ih =>
    rw [ih, aheadStack_cons, ahead_text, Ahead.fitsIn_runsOn]
  | case5 remaining h i m rest a b ih =>
    rw [ih, aheadStack_cons, aheadStack_cons, aheadStack_cons, ahead_concat, Ahead.andThen_assoc]
  | case6 remaining h i m rest n d ih => rw [ih, aheadStack_cons, aheadStack_cons, ahead_nest]
  | case7 remaining h i m rest d ih => rw [ih, aheadStack_cons, aheadStack_cons, ahead_group]
  | case8 remaining h i rest ih =>
    rw [ih, aheadStack_cons, ahead, Ahead.fitsIn_runsOn]
    rfl
  | case9 remaining h i m rest hm =>
    cases m with
    | flat => exact absurd rfl hm
    | broken =>
      have hnonneg : (0 : Int) ≤ remaining := by omega
      simpa [aheadStack_cons, ahead, Ahead.andThen, Ahead.FitsIn] using hnonneg
  | case10 remaining h i rest =>
    have hnonneg : (0 : Int) ≤ remaining := by omega
    simpa [aheadStack_cons, ahead, Ahead.andThen, Ahead.FitsIn] using hnonneg
  | case11 remaining h i m rest hm ih =>
    cases m with
    | flat => rw [ih, aheadStack_cons, ahead, Ahead.runsOn_zero]
    | broken => exact absurd rfl hm
  | case12 remaining h i rest => simp [aheadStack_cons, ahead, Ahead.andThen, Ahead.FitsIn]
  | case13 remaining h i m rest hm =>
    cases m with
    | flat => exact absurd rfl hm
    | broken =>
      have hnonneg : (0 : Int) ≤ remaining := by omega
      simpa [aheadStack_cons, ahead, Ahead.andThen, Ahead.FitsIn] using hnonneg
  | case14 remaining h i m rest broken flat ih =>
    rw [ih, aheadStack_cons, aheadStack_cons, ahead_ifBreak]

/-- A document on one line. -/
def flatText : Doc → List Char
  | .nil | .softLine | .hardLine => []
  | .text s => s
  | .line => [' ']
  | .concat a b => flatText a ++ flatText b
  | .nest _ d | .group d => flatText d
  | .ifBreak _ flat => flatText flat

/-- How a document is laid out from column `col` on with `after` behind it, and the column that it
ends at. A group is laid flat where it fits with what comes up to the next newline. -/
inductive Lays (width : Nat) : Nat → Doc → Ahead → Nat → List Char → Nat → Prop
  | nil {i col : Nat} {after : Ahead} : Lays width i .nil after col [] col
  | text {i col : Nat} {after : Ahead} {s : List Char} :
      Lays width i (.text s) after col s (col + s.length)
  | line {i col : Nat} {after : Ahead} : Lays width i .line after col (newline i) i
  | softLine {i col : Nat} {after : Ahead} : Lays width i .softLine after col (newline i) i
  | hardLine {i col : Nat} {after : Ahead} : Lays width i .hardLine after col (newline i) i
  | concat {i col c c' : Nat} {a b : Doc} {after : Ahead} {s t : List Char} :
      Lays width i a ((ahead .broken b).andThen after) col s c → Lays width i b after c t c' →
      Lays width i (.concat a b) after col (s ++ t) c'
  | nest {i n col c : Nat} {d : Doc} {after : Ahead} {s : List Char} :
      Lays width (i + n) d after col s c → Lays width i (.nest n d) after col s c
  | ifBreak {i col c : Nat} {broken flat : Doc} {after : Ahead} {s : List Char} :
      Lays width i broken after col s c → Lays width i (.ifBreak broken flat) after col s c
  | flat {i col : Nat} {d : Doc} {after : Ahead} :
      ((ahead .flat d).andThen after).FitsIn (width - col) → col + (flatText d).length ≤ width →
      Lays width i (.group d) after col (flatText d) (col + (flatText d).length)
  | broken {i col c : Nat} {d : Doc} {after : Ahead} {s : List Char} :
      ¬ ((ahead .flat d).andThen after).FitsIn (width - col) → Lays width i d after col s c →
      Lays width i (.group d) after col s c

section Render

variable {width i col c : Nat} {d : Doc} {after : Ahead} {s : List Char}

/-- A flat group has its text ahead, unless a newline must come in it. -/
theorem ahead_flat (d : Doc) :
    ahead .flat d = .runsOn (flatText d).length ∨ ahead .flat d = .never := by
  induction d with
  | nil | text s | line | softLine => exact .inl rfl
  | hardLine => exact .inr rfl
  | concat a b iha ihb =>
    rw [ahead_concat, flatText, List.length_append]
    rcases iha with ha | ha
    · rcases ihb with hb | hb
      · exact .inl (by rw [ha, hb]; rfl)
      · exact .inr (by rw [ha, hb]; rfl)
    · exact .inr (by rw [ha]; rfl)
  | nest n d ih => exact ih
  | group d ih => exact ih
  | ifBreak broken flat _ ih => exact ih

theorem flat_runsOn {remaining : Int} (h : ((ahead .flat d).andThen after).FitsIn remaining) :
    ahead .flat d = .runsOn (flatText d).length := by
  rcases ahead_flat d with hd | hd
  · exact hd
  · rw [hd] at h
    exact h.elim

theorem flat_length_le (h : ((ahead .flat d).andThen after).FitsIn ((width : Int) - col)) :
    col + (flatText d).length ≤ width := by
  rw [flat_runsOn h, Ahead.fitsIn_runsOn] at h
  by_contra hlt
  exact Ahead.not_fitsIn (by omega) _ h

/-- In a group that fits, nothing breaks. -/
theorem renderLoop_flat (out : List Char) (rest : List Item)
    (h : ((ahead .flat d).andThen (aheadStack rest)).FitsIn ((width : Int) - col)) :
    renderLoop width out col (⟨i, .flat, d⟩ :: rest) =
      renderLoop width (out ++ flatText d) (col + (flatText d).length) rest := by
  induction d generalizing i out col rest with
  | nil => rw [renderLoop, flatText, List.append_nil, List.length_nil, Nat.add_zero]
  | text s => rw [renderLoop, flatText]
  | line =>
    rw [renderLoop, if_pos rfl]
    rfl
  | softLine =>
    rw [renderLoop, if_neg (by decide), flatText, List.append_nil, List.length_nil, Nat.add_zero]
  | hardLine => exact h.elim
  | concat a b iha ihb =>
    rw [ahead_concat, Ahead.andThen_assoc] at h
    have hb := h
    rw [flat_runsOn h, Ahead.fitsIn_runsOn] at hb
    rw [renderLoop, iha _ _ (by rwa [aheadStack_cons]), ihb, flatText, List.append_assoc,
      List.length_append, Nat.add_assoc]
    push_cast
    rwa [← Int.sub_sub]
  | nest n d ih => rw [renderLoop, ih _ _ h, flatText]
  | group d ih =>
    have hfits : fits ((width : Int) - col) (⟨i, .flat, d⟩ :: rest) = true := (fits_iff _ _).mpr h
    rw [renderLoop, hfits, if_pos rfl, ih _ _ h, flatText]
  | ifBreak broken flat _ ih =>
    rw [renderLoop]
    exact ih _ _ h

theorem renderLoop_lays (d : Doc) (i col : Nat) (rest : List Item) :
    ∃ s c, Lays width i d (aheadStack rest) col s c ∧ ∀ out,
      renderLoop width out col (⟨i, .broken, d⟩ :: rest) = renderLoop width (out ++ s) c rest := by
  induction d generalizing i col rest with
  | nil =>
    refine ⟨_, _, .nil, fun out => ?_⟩
    rw [renderLoop, List.append_nil]
  | text s =>
    refine ⟨_, _, .text, fun out => ?_⟩
    rw [renderLoop]
  | line =>
    refine ⟨_, _, .line, fun out => ?_⟩
    rw [renderLoop, if_neg (by decide)]
  | softLine =>
    refine ⟨_, _, .softLine, fun out => ?_⟩
    rw [renderLoop, if_pos rfl]
  | hardLine =>
    refine ⟨_, _, .hardLine, fun out => ?_⟩
    rw [renderLoop]
  | concat a b iha ihb =>
    obtain ⟨s, c, ha, hs⟩ := iha i col (⟨i, .broken, b⟩ :: rest)
    obtain ⟨t, c', hb, ht⟩ := ihb i c rest
    refine ⟨_, _, .concat ha hb, fun out => ?_⟩
    rw [renderLoop, hs, ht, List.append_assoc]
  | nest n d ih =>
    obtain ⟨s, c, hd, hs⟩ := ih (i + n) col rest
    refine ⟨_, _, .nest hd, fun out => ?_⟩
    rw [renderLoop, hs]
  | group d ih =>
    by_cases hfits : ((ahead .flat d).andThen (aheadStack rest)).FitsIn ((width : Int) - col)
    · refine ⟨_, _, .flat hfits (flat_length_le hfits), fun out => ?_⟩
      rw [renderLoop, (fits_iff _ _).mpr hfits, if_pos rfl, renderLoop_flat _ _ hfits]
    · obtain ⟨s, c, hd, hs⟩ := ih i col rest
      refine ⟨_, _, .broken hfits hd, fun out => ?_⟩
      have hnot : ¬ fits ((width : Int) - col) (⟨i, .flat, d⟩ :: rest) = true :=
        fun h => hfits ((fits_iff _ _).mp h)
      rw [renderLoop, if_neg hnot, hs]
  | ifBreak broken flat ih _ =>
    obtain ⟨s, c, hd, hs⟩ := ih i col rest
    refine ⟨_, _, .ifBreak hd, fun out => ?_⟩
    rw [renderLoop]
    exact hs out

/-- A document has one layout. -/
theorem Lays.unique {s' : List Char} {c' : Nat} (h : Lays width i d after col s c)
    (h' : Lays width i d after col s' c') : s = s' ∧ c = c' := by
  induction h generalizing s' c' with
  | nil | text | line | softLine | hardLine =>
    cases h'
    exact ⟨rfl, rfl⟩
  | concat _ _ iha ihb =>
    cases h' with
    | concat ha hb =>
      obtain ⟨rfl, rfl⟩ := iha ha
      obtain ⟨rfl, rfl⟩ := ihb hb
      exact ⟨rfl, rfl⟩
  | nest _ ih =>
    cases h' with
    | nest hd => exact ih hd
  | ifBreak _ ih =>
    cases h' with
    | ifBreak hd => exact ih hd
  | flat hfits _ =>
    cases h' with
    | flat _ _ => exact ⟨rfl, rfl⟩
    | broken hnot _ => exact absurd hfits hnot
  | broken hnot _ ih =>
    cases h' with
    | flat hfits _ => exact absurd hfits hnot
    | broken _ hd => exact ih hd

end Render

/-- The renderer writes the layout in which a group is on one line, and ends within the width, where
that fits with what comes up to the next newline, and is broken elsewhere. -/
theorem render_lays_iff (doc : Doc) (width : Nat) (s : List Char) :
    render doc width = s ↔ ∃ c, Lays width 0 doc (.runsOn 0) 0 s c := by
  obtain ⟨t, c, hlays, hrender⟩ := @renderLoop_lays width doc 0 0 []
  have ht : render doc width = t := by
    rw [render, hrender, renderLoop, List.nil_append]
  rw [ht]
  constructor
  · rintro rfl
    exact ⟨c, hlays⟩
  · rintro ⟨c', h⟩
    exact (hlays.unique h).1

section Bracketed

variable {width i col c : Nat} {after : Ahead} {s : List Char}

@[simp] theorem flatText_cat (a b : Doc) : flatText (a.cat b) = flatText a ++ flatText b := by
  unfold Doc.cat
  split <;> simp [flatText]

theorem lays_cat {a b : Doc} (h : Lays width i (a.cat b) after col s c) :
    ∃ s₁ c₁ s₂ after', Lays width i a after' col s₁ c₁ ∧ Lays width i b after c₁ s₂ c ∧
      s = s₁ ++ s₂ := by
  unfold Doc.cat at h
  split at h
  next => exact ⟨[], col, s, after, .nil, h, rfl⟩
  next => exact ⟨s, c, [], after, h, .nil, (List.append_nil s).symm⟩
  next =>
    cases h with
    | concat ha hb => exact ⟨_, _, _, _, ha, hb, rfl⟩

theorem join_concat (sep : Doc) (docs : List Doc) (d : Doc) :
    Doc.join sep (docs ++ [d]) =
      Doc.cat (if docs = [] then .nil else Doc.cat (Doc.join sep docs) sep) d := by
  have hcount : ∀ (docs : List Doc) (acc : Doc × Nat),
      (docs.foldl (fun acc d => (Doc.cat (if 0 < acc.2 then Doc.cat acc.1 sep else acc.1) d,
        acc.2 + 1)) acc).2 = acc.2 + docs.length := by
    intro docs
    induction docs with
    | nil => intro acc; rfl
    | cons d docs ih =>
      intro acc
      rw [List.foldl_cons, ih, List.length_cons, Nat.add_assoc, Nat.add_comm 1]
  unfold Doc.join
  rw [List.foldl_append, List.foldl_cons, List.foldl_nil, hcount, Nat.zero_add]
  cases docs with
  | nil => rfl
  | cons d' docs => simp

theorem intercalate_concat {sep t : List Char} {ts : List (List Char)} (h : ts ≠ []) :
    sep.intercalate (ts ++ [t]) = sep.intercalate ts ++ (sep ++ t) := by
  induction ts with
  | nil => exact absurd rfl h
  | cons u ts ih =>
    cases ts with
    | nil =>
      rw [List.singleton_append, List.intercalate_cons_cons, List.intercalate_singleton,
        List.intercalate_singleton, List.append_assoc]
    | cons v ts =>
      rw [List.cons_append, List.cons_append, List.intercalate_cons_cons,
        List.intercalate_cons_cons, ← List.cons_append, ih (List.cons_ne_nil v ts)]
      simp only [List.append_assoc]

theorem flatText_join (docs : List Doc) :
    flatText (Doc.join (Doc.cat (.text [',']) .line) docs) =
      [',', ' '].intercalate (docs.map flatText) := by
  induction docs using List.reverseRecOn with
  | nil => rfl
  | append_singleton docs d ih =>
    rw [join_concat, flatText_cat]
    by_cases hdocs : docs = []
    · subst hdocs
      simp [flatText]
    · have hne : docs.map flatText ≠ [] := by simpa using hdocs
      rw [if_neg hdocs, flatText_cat, ih, List.map_append, List.map_cons, List.map_nil,
        intercalate_concat hne, List.append_assoc]
      rfl

/-- An item a line, each with the indentation of the first. -/
theorem lays_join {docs : List Doc} (hdocs : docs ≠ [])
    (h : Lays width i (Doc.join (Doc.cat (.text [',']) .line) docs) after i s c) :
    ∃ ts, List.Forall₂ (fun d t => ∃ after c, Lays width i d after i t c) docs ts ∧
      s = (',' :: newline i).intercalate ts := by
  induction docs using List.reverseRecOn generalizing s c after with
  | nil => exact absurd rfl hdocs
  | append_singleton docs d ih =>
    rw [join_concat] at h
    by_cases hnil : docs = []
    · subst hnil
      refine ⟨[s], .cons ⟨after, c, h⟩ .nil, ?_⟩
      rw [List.intercalate_singleton]
    · rw [if_neg hnil] at h
      obtain ⟨s₁, c₁, t, after₁, hfirst, hd, rfl⟩ := lays_cat h
      obtain ⟨s₀, c₀, u, after₀, hjoin, hsep, rfl⟩ := lays_cat hfirst
      obtain ⟨ts, hts, rfl⟩ := ih hnil hjoin
      -- The separator ends a line, so the next item starts at the indentation.
      obtain ⟨rfl, rfl⟩ : u = ',' :: newline i ∧ c₁ = i := by
        cases hsep with
        | concat hcomma hline =>
          cases hcomma
          cases hline
          exact ⟨rfl, rfl⟩
      have hne : ts ≠ [] := by
        rintro rfl
        cases hts
        exact hnil rfl
      refine ⟨ts ++ [t], List.rel_append hts (.cons ⟨_, _, hd⟩ .nil), ?_⟩
      rw [intercalate_concat hne, List.append_assoc]

/-- A list between brackets is on one line, with no comma after its last item, and ends within the
width; or it has an item a line, each indented one step and with a comma after it, and the closing
bracket on a line of its own. -/
theorem bracketed_lays {opening closing : List Char} {items : List Doc} (hitems : items ≠ [])
    (h : Lays width i (Doc.bracketed opening items closing) after col s c) :
    (s = opening ++ [',', ' '].intercalate (items.map flatText) ++ closing ∧
        col + s.length ≤ width) ∨
      ∃ ts, List.Forall₂ (fun d t =>
          ∃ after c, Lays width (i + indentStep) d after (i + indentStep) t c) items ts ∧
        s = opening ++ newline (i + indentStep) ++
          (',' :: newline (i + indentStep)).intercalate ts ++ ',' :: newline i ++ closing := by
  have hempty : items.isEmpty = false := by simpa using hitems
  simp only [Doc.bracketed, hempty, Bool.false_eq_true, if_false] at h
  cases h with
  | flat hfits hlen =>
    left
    have hflat : flatText (Doc.catAll [.text opening,
        .nest indentStep (Doc.cat (Doc.cat .softLine
          (Doc.join (Doc.cat (.text [',']) .line) items)) (.ifBreak (.text [',']) .nil)),
        .softLine, .text closing]) =
        opening ++ [',', ' '].intercalate (items.map flatText) ++ closing := by
      simp only [Doc.catAll, List.foldl_cons, List.foldl_nil, flatText_cat, flatText,
        flatText_join, List.nil_append, List.append_nil]
    rw [hflat] at hlen ⊢
    exact ⟨rfl, hlen⟩
  | broken _ h =>
    right
    simp only [Doc.catAll, List.foldl_cons, List.foldl_nil] at h
    obtain ⟨_, _, _, _, hstart, hclosing, rfl⟩ := lays_cat h
    obtain ⟨_, _, _, _, hitem, hsoft, rfl⟩ := lays_cat hstart
    obtain ⟨_, _, _, _, hopening, hnest, rfl⟩ := lays_cat hitem
    change Lays width i (.text opening) _ _ _ _ at hopening
    cases hclosing
    cases hsoft
    cases hopening
    cases hnest with
    | nest hinner =>
      obtain ⟨_, _, _, _, hlist, hcomma, rfl⟩ := lays_cat hinner
      obtain ⟨_, _, _, _, hfirst, hjoin, rfl⟩ := lays_cat hlist
      cases hfirst
      cases hcomma with
      | ifBreak hcomma =>
        cases hcomma
        obtain ⟨ts, hts, rfl⟩ := lays_join hitems hjoin
        refine ⟨ts, hts, ?_⟩
        simp only [List.append_assoc, List.cons_append, List.nil_append]

theorem bracketed_lays_pair : ∃ s c,
    Lays 80 0 (Doc.bracketed ['['] [.text ['a'], .text ['b']] [']']) (.runsOn 0) 0 s c ∧
      (s = ['[', 'a', ',', ' ', 'b', ']'] ∨ ',' :: newline 0 <:+: s) := by
  obtain ⟨c, h⟩ :=
    (render_lays_iff (Doc.bracketed ['['] [.text ['a'], .text ['b']] [']']) 80 _).mp rfl
  refine ⟨_, c, h, ?_⟩
  rcases bracketed_lays (by simp) h with ⟨hs, _⟩ | ⟨ts, _, hs⟩
  · exact .inl hs
  · rw [hs]
    exact .inr ⟨_, [']'], rfl⟩

end Bracketed

end Fmt

end Olive
