import Olive.DescriptorFits

/-! Reads gone wrong: a name or count that does not fit, or a back-reference, and what `fmt` makes of
it. -/

namespace Olive

open Walked

/-- The first entry in which `a` and `b` differ comes before the end of either. -/
def Diverges {α : Type} (a b : List (Seen α)) : Prop :=
  ∃ common x y xs ys, a = common ++ x :: xs ∧ b = common ++ y :: ys ∧ x ≠ y

/-- The walk `w` runs off the data, or reads something that it should not. -/
def Wrong {α : Type} (w u : Walked α) : Prop := w.ends = none ∨ Diverges w.seen u.seen

/-- The walk runs off the data, or reads at `pos` first. -/
def Starts {α : Type} (w : Walked α) (pos : Nat) : Prop :=
  w.ends = none ∨ ∃ s rest, w.seen = s :: rest ∧ s.pos = pos

section Wrong

variable {α : Type} {w u : Walked α} {s s' : Seen α}

theorem Diverges.extend {a b : List (Seen α)} (h : Diverges a b) (a' b' : List (Seen α)) :
    Diverges (a ++ a') (b ++ b') := by
  obtain ⟨common, x, y, xs, ys, rfl, rfl, hne⟩ := h
  exact ⟨common, x, y, xs ++ a', ys ++ b', by simp, by simp, hne⟩

theorem Diverges.after {a b : List (Seen α)} (h : Diverges a b) (before : List (Seen α)) :
    Diverges (before ++ a) (before ++ b) := by
  obtain ⟨common, x, y, xs, ys, rfl, rfl, hne⟩ := h
  exact ⟨before ++ common, x, y, xs, ys, by simp, by simp, hne⟩

theorem Diverges.ne {a b : List (Seen α)} (h : Diverges a b) : a ≠ b := by
  obtain ⟨common, x, y, xs, ys, rfl, rfl, hne⟩ := h
  intro heq
  exact hne (List.cons.inj (List.append_cancel_left heq)).1

theorem andThen_seen (w : Walked α) (next : Nat → Walked α) :
    ∃ more, (w.andThen next).seen = w.seen ++ more := by
  cases hends : w.ends with
  | none => exact ⟨[], by simp [andThen, hends]⟩
  | some pos => exact ⟨(next pos).seen, by simp [andThen, hends]⟩

theorem Wrong.note (h : Wrong w u) (s : Seen α) : Wrong (note s w) (note s u) := by
  rcases h with h | h
  · exact .inl h
  · exact .inr (h.after [s])

theorem Wrong.andThen_left (h : Wrong w u) (next : Nat → Walked α) : Wrong (w.andThen next) u := by
  rcases h with h | h
  · left
    simp [Walked.andThen, h]
  · obtain ⟨more, hmore⟩ := andThen_seen w next
    have hext := h.extend more []
    rw [List.append_nil] at hext
    exact .inr (hmore ▸ hext)

theorem Wrong.andThen_right (h : Wrong w u) (next : Nat → Walked α) : Wrong w (u.andThen next) := by
  rcases h with h | h
  · exact .inl h
  · obtain ⟨more, hmore⟩ := andThen_seen u next
    have hext := h.extend [] more
    rw [List.append_nil] at hext
    exact .inr (hmore ▸ hext)

theorem Wrong.andThen (h : Wrong w u) (next next' : Nat → Walked α) :
    Wrong (w.andThen next) (u.andThen next') :=
  (h.andThen_left next).andThen_right next'

theorem Wrong.next {next next' : Nat → Walked α} {pos : Nat} (hends : w.ends = some pos)
    (h : Wrong (next pos) (next' pos)) : Wrong (w.andThen next) (w.andThen next') := by
  rcases h with h | h
  · left
    rw [andThen_ends hends, h]
  · right
    simp only [Walked.andThen, hends]
    exact h.after w.seen

theorem Wrong.goesTo {next : Nat → Walked α} (h : ∀ pos, Wrong (next pos) u) (past : Option Nat) :
    Wrong ((Walked.goesTo past).andThen next) u := by
  cases past with
  | none => exact .inl rfl
  | some pos =>
    rw [goesTo_some_andThen]
    exact h pos

theorem wrong_of_heads (h : s ≠ s') : Wrong (note s w) (note s' u) :=
  .inr ⟨[], s, s', w.seen, u.seen, rfl, rfl, h⟩

theorem wrong_of_starts {pos : Nat} (h : Starts w pos)
    (hu : ∃ s rest, u.seen = s :: rest ∧ s.pos ≠ pos) : Wrong w u := by
  rcases h with h | ⟨s, rest, hw, hs⟩
  · exact .inl h
  · obtain ⟨s', rest', hu, hs'⟩ := hu
    refine .inr ⟨[], s, s', rest, rest', hw, hu, ?_⟩
    rintro rfl
    exact hs' hs

theorem Wrong.ne_of_ends {pos : Nat} (h : Wrong w u) (hends : w.ends = some pos) : w ≠ u := by
  rintro rfl
  rcases h with h | h
  · rw [h] at hends
    cases hends
  · exact h.ne rfl

theorem starts_note {pos : Nat} (h : s.pos = pos) : Starts (note s w) pos :=
  .inr ⟨s, w.seen, rfl, h⟩

theorem Starts.andThen {pos : Nat} (h : Starts w pos) (next : Nat → Walked α) :
    Starts (w.andThen next) pos := by
  rcases h with h | ⟨s, rest, hw, hs⟩
  · left
    simp [Walked.andThen, h]
  · obtain ⟨more, hmore⟩ := andThen_seen w next
    exact .inr ⟨s, rest ++ more, by rw [hmore, hw]; rfl, hs⟩

end Wrong

section Emitted

variable {out desc : List UInt8}

/-- A byte from 128 on takes two. -/
theorem utf8EncodeChar_high : ∀ n < 256, 128 ≤ n → ∃ c c', String.utf8EncodeChar (Char.ofNat n) =
    [c, c'] ∧ (c.toNat = 194 ∨ c.toNat = 195) := by
  have h : ∀ n < 256, 128 ≤ n → String.utf8EncodeChar (Char.ofNat n) =
      [UInt8.ofNat (192 + n / 64), UInt8.ofNat (128 + n % 64)] := by decide +kernel
  intro n hn hge
  refine ⟨_, _, h n hn hge, ?_⟩
  rw [UInt8.toNat_ofNat_of_lt' (show 192 + n / 64 < 256 by omega)]
  omega

theorem emitted_singleton (b : UInt8) :
    emitted [b] = String.utf8EncodeChar (Char.ofNat b.toNat) := by
  simp [emitted]

theorem length_le_posAfter (out : List UInt8) : out.length ≤ posAfter out := by
  induction out with
  | nil => exact Nat.zero_le _
  | cons b out ih =>
    have hb : 1 ≤ (emitted [b]).length := by
      rw [emitted_singleton, String.length_utf8EncodeChar]
      exact Char.utf8Size_pos _
    have hsplit : posAfter (b :: out) = (emitted [b]).length + posAfter out := by
      rw [posAfter, ← List.singleton_append, emitted_append, List.length_append]
      rfl
    rw [hsplit, List.length_cons]
    omega

theorem lt_posAfter_of_high (h : ∃ b ∈ out, 128 ≤ b.toNat) : out.length < posAfter out := by
  obtain ⟨b, hmem, hb⟩ := h
  obtain ⟨before, after, rfl⟩ := List.append_of_mem hmem
  obtain ⟨c, c', hc, -⟩ := utf8EncodeChar_high b.toNat b.toNat_lt hb
  have hbefore := length_le_posAfter before
  have hafter := length_le_posAfter after
  have hsplit : posAfter (before ++ b :: after) = posAfter before + (2 + posAfter after) := by
    rw [posAfter, show before ++ b :: after = before ++ ([b] ++ after) from rfl, emitted_append,
      emitted_append, emitted_singleton, hc, List.length_append, List.length_append]
    rfl
  rw [hsplit, List.length_append, List.length_cons]
  omega

theorem emitted_extends {out' : List UInt8} (h : out <+: out') : emitted out <+: emitted out' := by
  obtain ⟨rest, rfl⟩ := h
  rw [emitted_append]
  exact List.prefix_append _ _

theorem readCount_low {bias : Nat} {b : UInt8} (hout : Ascii out) (hb : b.toNat < 128)
    (hp : emitted (out ++ [b]) <+: desc) :
    readCount bias desc out.length = if bias ≤ b.toNat then some (b.toNat - bias) else none := by
  rw [emitted_of_ascii (hout.append (ascii_singleton hb))] at hp
  rw [readCount, getElem?_of_extends hp, Option.bind_some]

/-- A count from 128 on is read as its first byte in UTF-8. -/
theorem readCount_high {bias : Nat} {b : UInt8} (hbias : bias ≤ 13) (hout : Ascii out)
    (hb : 128 ≤ b.toNat) (hp : emitted (out ++ [b]) <+: desc) :
    ∃ m, (m + bias = 194 ∨ m + bias = 195) ∧ readCount bias desc out.length = some m := by
  obtain ⟨c, c', hc, hcase⟩ := utf8EncodeChar_high b.toNat b.toNat_lt hb
  rw [emitted_append, emitted_of_ascii hout, emitted_singleton, hc] at hp
  refine ⟨c.toNat - bias, by omega, ?_⟩
  rw [readCount, getElem?_of_extends hp, Option.bind_some, if_pos (by omega)]

theorem posAfter_push (hout : Ascii out) (rest : List UInt8) :
    posAfter (out ++ rest) = out.length + posAfter rest := by
  rw [posAfter, emitted_append, List.length_append, emitted_of_ascii hout]
  rfl

theorem posAfter_high {b : UInt8} (hb : 128 ≤ b.toNat) : posAfter [b] = 2 := by
  obtain ⟨c, c', hc, -⟩ := utf8EncodeChar_high b.toNat b.toNat_lt hb
  rw [posAfter, emitted_singleton, hc]
  rfl

end Emitted

/-- The walk that should be reads first at `pos`, or at the start of what a back-reference names. -/
def Begins {α : Type} (u : Walked α) (pos low : Nat) : Prop :=
  ∃ s rest, u.seen = s :: rest ∧ (s.pos = pos ∨ s.pos ≤ low)

section Heads

variable {α : Type} {desc out : List UInt8} {u : Walked α}

theorem toNat_toUInt8_mod (n : Nat) : n.toUInt8.toNat = n % 256 := rfl

theorem wrong_count {bias n : Nat} {next : Nat → Nat → Walked α} (hlow : 1 ≤ bias) (hhigh : bias ≤ 13)
    (hbad : 128 ≤ n + bias) (hout : Ascii out) (hp : emitted (out ++ [(n + bias).toUInt8]) <+: desc)
    (hnext : ∀ m pos, 0 < m → Starts (next m pos) pos)
    (hu : Begins u (posAfter (out ++ [(n + bias).toUInt8])) out.length) :
    Wrong (readCounted desc bias out.length next) (note (.count out.length n) u) := by
  have hmod := toNat_toUInt8_mod (n + bias)
  by_cases hb : (n + bias).toUInt8.toNat < 128
  · -- the count wraps
    rw [readCounted, readCount_low hout hb hp]
    split
    next m hm =>
      split at hm
      next hle =>
        obtain rfl := Option.some.inj hm
        apply wrong_of_heads
        simp only [ne_eq, Seen.count.injEq, true_and]
        omega
      next => cases hm
    next => exact .inl rfl
  · -- the count takes two bytes
    obtain ⟨m, hm, hread⟩ := readCount_high hhigh hout (by omega) hp
    rw [readCounted, hread]
    by_cases hmn : m = n
    · subst hmn
      refine Wrong.note (wrong_of_starts (hnext m _ (by omega)) ?_) _
      obtain ⟨s, rest, hseen, hpos⟩ := hu
      rw [posAfter_push hout, posAfter_high (by omega)] at hpos
      exact ⟨s, rest, hseen, by omega⟩
    · apply wrong_of_heads
      simp only [ne_eq, Seen.count.injEq, true_and]
      exact hmn

/-- A name that does not fit has a NUL, or what comes after it is not found. -/
theorem wrong_name {s : String} {next : Nat → Walked α} (hbad : ¬FitsName s) (hout : Ascii out)
    (hp : emitted (pushLenPrefixed out s) <+: desc) (hnext : ∀ pos, Starts (next pos) pos)
    (hu : Begins u (posAfter (pushLenPrefixed out s)) out.length) :
    0 ∈ pushLenPrefixed out s ∨
      Wrong (readName desc out.length next) (note (.name out.length (nameLength s)) u) := by
  have hpush : pushLenPrefixed out s = out ++ (min (nameLength s) 242 + 13).toUInt8 ::
      s.toUTF8.data.toList.take 242 := rfl
  have hmod := toNat_toUInt8_mod (min (nameLength s) 242 + 13)
  have hlength : (out ++ [(min (nameLength s) 242 + 13).toUInt8]) <+: pushLenPrefixed out s :=
    ⟨s.toUTF8.data.toList.take 242, by rw [hpush]; simp⟩
  have hp' := (emitted_extends hlength).trans hp
  have htake : (s.toUTF8.data.toList.take 242).length = min 242 (nameLength s) := List.length_take
  obtain ⟨s', rest, hseen, hpos⟩ := hu
  by_cases hshort : nameLength s ≤ 114
  · have hmin : min (nameLength s) 242 = nameLength s := Nat.min_eq_left (by omega)
    rw [hmin] at hmod hp'
    by_cases hascii : ∀ b ∈ s.toUTF8.data.toList, b.toNat < 128
    · -- short and in ASCII: a zero byte is left
      left
      have hzero : ∃ b ∈ s.toUTF8.data.toList, b = 0 := by
        by_contra hnone
        exact hbad ⟨hshort, hascii, fun b hb h0 => hnone ⟨b, hb, h0⟩⟩
      obtain ⟨b, hb, rfl⟩ := hzero
      rw [pushLenPrefixed_eq (by omega)]
      exact List.mem_append_right _ (List.mem_cons_of_mem _ hb)
    · -- a character that takes more bytes than the length says
      right
      have hhigh : ∃ b ∈ s.toUTF8.data.toList, 128 ≤ b.toNat := by
        push Not at hascii
        obtain ⟨b, hb, hlt⟩ := hascii
        exact ⟨b, hb, by omega⟩
      have hmore := lt_posAfter_of_high hhigh
      have hread : readCount 13 desc out.length = some (nameLength s) := by
        rw [readCount_low hout (by omega) hp', if_pos (by omega)]
        congr 1
        omega
      rw [readName, hread]
      refine Wrong.note (wrong_of_starts (hnext _) ⟨s', rest, hseen, ?_⟩) _
      have hbyte : Ascii [(nameLength s + 13).toUInt8] := ascii_singleton (by omega)
      rw [pushLenPrefixed_eq (by omega), List.append_cons, posAfter_push (hout.append hbyte),
        List.length_append, List.length_singleton] at hpos
      have hbytes : s.toUTF8.data.toList.length = nameLength s := rfl
      omega
  · -- a length from 128 on takes two bytes itself
    right
    obtain ⟨m, hm, hread⟩ := @readCount_high out desc 13 _ (by omega) hout (by omega) hp'
    rw [readName, hread]
    by_cases hmn : m = nameLength s
    · subst hmn
      refine Wrong.note (wrong_of_starts (hnext _) ⟨s', rest, hseen, ?_⟩) _
      have hbytes := length_le_posAfter (s.toUTF8.data.toList.take 242)
      have hsplit : posAfter ([(min (nameLength s) 242 + 13).toUInt8] ++
          s.toUTF8.data.toList.take 242) = 2 + posAfter (s.toUTF8.data.toList.take 242) := by
        rw [posAfter, emitted_append, List.length_append]
        congr 1
        exact posAfter_high (by omega)
      rw [hpush, posAfter_push hout] at hpos
      rw [List.singleton_append] at hsplit
      omega
    · apply wrong_of_heads
      simp only [ne_eq, Seen.name.injEq, true_and]
      exact hmn

theorem readName_starts {next : Nat → Walked α} (pos : Nat) : Starts (readName desc pos next) pos := by
  unfold readName
  split
  next => exact starts_note rfl
  next => exact .inl rfl

theorem readCounted_starts {bias : Nat} {next : Nat → Nat → Walked α} (pos : Nat) :
    Starts (readCounted desc bias pos next) pos := by
  unfold readCounted
  split
  next => exact starts_note rfl
  next => exact .inl rfl

theorem forRange_starts {body : Nat → Nat → Walked α} {n i pos : Nat} (hn : 0 < n)
    (h : Starts (body i pos) pos) : Starts (forRange body n i pos) pos := by
  cases n with
  | zero => omega
  | succ n => exact h.andThen _

theorem begins_note {s : Seen α} {low : Nat} : Begins (note s u) s.pos low :=
  ⟨s, u.seen, rfl, .inl rfl⟩

theorem Begins.andThen {pos low : Nat} (h : Begins u pos low) (next : Nat → Walked α) :
    Begins (u.andThen next) pos low := by
  obtain ⟨s, rest, hu, hs⟩ := h
  obtain ⟨more, hmore⟩ := andThen_seen u next
  exact ⟨s, rest ++ more, by rw [hmore, hu]; rfl, hs⟩

theorem Begins.weaken {pos low low' : Nat} (h : Begins u pos low) (hle : low ≤ low') :
    Begins u pos low' := by
  obtain ⟨s, rest, hu, hs⟩ := h
  exact ⟨s, rest, hu, hs.imp_right fun hs => Nat.le_trans hs hle⟩

theorem forTypes_begins {τ : Type} {body : Nat → τ → List UInt8 → Walked α}
    {push : List UInt8 → τ → List UInt8} {ts : List τ} {i low : Nat} (hts : 0 < ts.length)
    (h : ∀ t, Begins (body i t out) (posAfter out) low) :
    Begins (forTypes body push ts i out) (posAfter out) low := by
  cases ts with
  | nil => simp at hts
  | cons t ts => exact (h t).andThen _

end Heads

section Fmt

variable {α : Type} {tables : TypeTables} {visiting : FxHashMap String Nat} {ty : OliveType}
  {desc out : List UInt8} {zero : α}

theorem walk_fmt {depth pos : Nat} {tag : UInt8} {v : Value α} (h : desc[pos]? = some tag) :
    walk fmtVal desc zero (depth + 1) v pos = note (.enter v pos tag)
      (walkNode fmtVal desc zero (walk fmtVal desc zero depth) v tag (pos + 1)) := by
  rw [walk, h]
  simp [fmtVal]

theorem expected_fmt {depth : Nat} {v : Value α} :
    expected fmtVal tables zero (depth + 1) v visiting ty out =
      (expectedNode fmtVal tables zero (expected fmtVal tables zero depth) v visiting ty out).andThen
        fun _ => goesTo (some (posAfter (encodeDescriptor tables visiting ty out))) := by
  rw [expected]
  simp [fmtVal]

theorem walkSeq_fmt {visit : Value α → Nat → Walked α} {v : Value α} {pos : Nat} {b : UInt8}
    (h : desc[pos]? = some b) : walkSeq fmtVal desc visit v pos =
      (visitAll ((v.items?.getD []).map fun x => visit x pos)).andThen
        fun _ => goesTo (skip desc pos) := by
  rw [walkSeq, h]
  rfl

theorem walk_starts (depth : Nat) (v : Value α) (pos : Nat) :
    Starts (walk fmtVal desc zero depth v pos) pos := by
  cases depth with
  | zero => exact .inl rfl
  | succ depth =>
    cases h : desc[pos]? with
    | none =>
      left
      rw [walk, h]
      simp [fmtVal, goesTo]
    | some tag =>
      rw [walk_fmt h]
      exact starts_note rfl

mutual
/-- A back-reference stands for the struct or enum that is being visited under its name. -/
theorem arm_of_backref {target : Nat} (ty : OliveType)
    (h : descriptorArm tables visiting ty = .backref target) :
    ∃ name, visiting name = some target ∧ ∀ visiting' : FxHashMap String Nat, visiting' name = none →
      (∃ tag fields, descriptorArm tables visiting' ty = .struct tag name fields) ∨
        ∃ variants, descriptorArm tables visiting' ty = .enum name variants := by
  cases ty with
  | ref ty | mutRef ty | ptr ty =>
    rw [descriptorArm] at h
    obtain ⟨name, hname, hrest⟩ := arm_of_backref ty h
    refine ⟨name, hname, fun visiting' hv' => ?_⟩
    rw [descriptorArm]
    exact hrest visiting' hv'
  | union members =>
    rw [descriptorArm] at h
    split at h
    · cases h
    next hunion =>
      cases hs : soleArm tables visiting members with
      | none =>
        rw [hs] at h
        cases h
      | some arm =>
        rw [hs] at h
        obtain ⟨name, hname, hrest⟩ := soleArm_of_backref members (hs.trans (congrArg some h))
        refine ⟨name, hname, fun visiting' hv' => ?_⟩
        rw [descriptorArm, if_neg hunion]
        obtain ⟨arm', harm', hcase⟩ := hrest visiting' hv'
        rw [harm']
        exact hcase
  | struct name args isFfi =>
    rw [descriptorArm] at h
    split at h
    next fields start hl hv =>
      obtain rfl := DescriptorArm.backref.inj h
      refine ⟨name, hv, fun visiting' hv' => .inl ?_⟩
      rw [descriptorArm, hl, hv']
      exact ⟨_, _, rfl⟩
    next => cases h
    next => cases h
  | «enum» name args =>
    rw [descriptorArm] at h
    split at h
    next variants start hl hv =>
      obtain rfl := DescriptorArm.backref.inj h
      refine ⟨name, hv, fun visiting' hv' => .inr ?_⟩
      rw [descriptorArm, hl, hv']
      exact ⟨_, rfl⟩
    next => cases h
    next => cases h
  | _ => simp [descriptorArm] at h
theorem soleArm_of_backref {target : Nat} (members : List OliveType)
    (h : soleArm tables visiting members = some (.backref target)) :
    ∃ name, visiting name = some target ∧ ∀ visiting' : FxHashMap String Nat, visiting' name = none →
      ∃ arm, soleArm tables visiting' members = some arm ∧
        ((∃ tag fields, arm = .struct tag name fields) ∨ ∃ variants, arm = .enum name variants) := by
  cases members with
  | nil => simp [soleArm] at h
  | cons m ms =>
    rw [soleArm] at h
    split at h
    next hnull =>
      obtain ⟨name, hname, hrest⟩ := soleArm_of_backref ms h
      refine ⟨name, hname, fun visiting' hv' => ?_⟩
      rw [soleArm, if_pos hnull]
      exact hrest visiting' hv'
    next hnull =>
      split at h
      next hall =>
        obtain ⟨name, hname, hrest⟩ := arm_of_backref m (Option.some.inj h)
        refine ⟨name, hname, fun visiting' hv' => ?_⟩
        rw [soleArm, if_neg hnull, if_pos hall]
        exact ⟨_, rfl, hrest visiting' hv'⟩
      next => cases h
end

theorem before_self {name : String} {target : Nat} (h : visiting name = some target) :
    visiting.before target name = none := by
  simp [FxHashMap.before, h]

theorem expected_backref {target depth : Nat} {v : Value α}
    (harm : descriptorArm tables visiting ty = .backref target) : ∃ tag rest, tag ≠ 14 ∧
      (expected fmtVal tables zero (depth + 2) v visiting ty out).seen =
        .enter v (posAfter (out.take target)) tag :: rest := by
  obtain ⟨name, hname, hrest⟩ := arm_of_backref ty harm
  have hnode : expectedNode fmtVal tables zero (expected fmtVal tables zero (depth + 1)) v visiting ty
      out = expected fmtVal tables zero (depth + 1) v (visiting.before target) ty (out.take target) := by
    rw [expectedNode, harm]
  rw [expected_fmt, hnode, expected_fmt, expectedNode]
  rcases hrest _ (before_self hname) with ⟨tag, fields, hstruct⟩ | ⟨variants, henum⟩
  · have htagged := @descriptorArm_tagged tables (visiting.before target) ty
    rw [hstruct] at htagged ⊢
    simp only [note_andThen]
    refine ⟨tag, _, ?_, rfl⟩
    rcases htagged with rfl | rfl <;> decide
  · rw [henum]
    simp only [note_andThen]
    exact ⟨13, _, by decide, rfl⟩

theorem expected_begins {base : List UInt8} {depth : Nat} {v : Value α} (hbase : Ascii base)
    (hout : base <+: out) (hlow : ∀ name start, visiting name = some start → start ≤ base.length) :
    Begins (expected fmtVal tables zero (depth + 2) v visiting ty out) (posAfter out) base.length := by
  cases harm : descriptorArm tables visiting ty with
  | backref target =>
    obtain ⟨tag, rest, -, hseen⟩ := @expected_backref α tables visiting ty out zero target depth v harm
    refine ⟨_, rest, hseen, .inr ?_⟩
    obtain ⟨name, hname, -⟩ := arm_of_backref ty harm
    have hle := hlow name target hname
    obtain ⟨tail, rfl⟩ := hout
    have htake : Ascii (base.take target) := fun b hb => hbase b (List.mem_of_mem_take hb)
    show posAfter ((base ++ tail).take target) ≤ base.length
    rw [List.take_append_of_le_length hle, posAfter_of_ascii htake]
    exact List.length_take_le' target base
  | _ =>
    rw [expected_fmt, expectedNode, harm]
    simp only [note_andThen]
    exact begins_note

end Fmt

end Olive
