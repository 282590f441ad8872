import Olive.FStrings

/-! F-strings that are written come back as their parts exactly where every field is cut out and
divided as it was written; what a field leaves behind its expression is passed over. -/

namespace Olive

namespace FStrings

open CivilTime (isWhitespace)

section Doubled

variable {c a : Char} {text rest : List Char} {p : Char → Bool}

/-- The characters of a kind written twice. -/
def double (p : Char → Bool) (text : List Char) : List Char :=
  text.flatMap fun c => if p c then [c, c] else [c]

@[simp] theorem double_nil : double p [] = [] := rfl

theorem double_cons_pos (h : p a = true) : double p (a :: text) = a :: a :: double p text := by
  simp [double, h]

theorem double_cons_neg (h : p a = false) : double p (a :: text) = a :: double p text := by
  simp [double, h]

theorem double_append : double p (text ++ rest) = double p text ++ double p rest :=
  List.flatMap_append

theorem double_eq_nil : double p text = [] ↔ text = [] := by
  cases text with
  | nil => simp
  | cons a text =>
    cases h : p a with
    | true => simp [double_cons_pos h]
    | false => simp [double_cons_neg h]

theorem undouble_pair : undouble c (c :: c :: text) = c :: undouble c text := by
  simp [undouble]

theorem undouble_cons_of_ne (h : a ≠ c) : undouble c (a :: text) = a :: undouble c text := by
  cases text with
  | nil => rfl
  | cons b text =>
    rw [undouble, if_neg]
    exact fun hab => h hab.1

/-- The other doubled characters stay. -/
theorem undouble_double (hc : p c = true) :
    undouble c (double p text ++ rest) =
      double (fun x => p x && x != c) text ++ undouble c rest := by
  induction text with
  | nil => rfl
  | cons a text ih =>
    by_cases hac : a = c
    · subst hac
      rw [double_cons_pos hc, List.cons_append, List.cons_append, undouble_pair, ih,
        double_cons_neg (by simp), List.cons_append]
    · cases ha : p a with
      | true =>
        rw [double_cons_pos ha, List.cons_append, List.cons_append, undouble_cons_of_ne hac,
          undouble_cons_of_ne hac, ih, double_cons_pos (by simp [ha, hac])]
        rfl
      | false =>
        rw [double_cons_neg ha, List.cons_append, undouble_cons_of_ne hac, ih,
          double_cons_neg (by simp [ha])]
        rfl

def isBrace (c : Char) : Bool := c == '{' || c == '}'

theorem undouble_braces :
    undouble '}' (undouble '{' (double isBrace text ++ rest)) =
      text ++ undouble '}' (undouble '{' rest) := by
  rw [undouble_double (by decide), undouble_double (by decide)]
  congr 1
  induction text with
  | nil => rfl
  | cons a text ih =>
    rw [double_cons_neg, ih]
    simp only [isBrace, Bool.and_eq_false_iff, Bool.or_eq_false_iff, beq_eq_false_iff_ne,
      bne_eq_false_iff_eq]
    tauto

end Doubled

section Nesting

variable {w : Char → Int} {text rest pre post : List Char}

/-- The sum of the weights of the characters. -/
def depth (w : Char → Int) (text : List Char) : Int := (text.map w).sum

@[simp] theorem depth_nil : depth w [] = 0 := rfl

theorem depth_cons {c : Char} : depth w (c :: text) = w c + depth w text := List.sum_cons

def brace (c : Char) : Int := if c = '{' then 1 else if c = '}' then -1 else 0

def bracket (c : Char) : Int :=
  if c = '(' ∨ c = '[' ∨ c = '{' then 1 else if c = ')' ∨ c = ']' ∨ c = '}' then -1 else 0

/-- Every closing brace has its opening one before it, where `count` of them are open already. -/
def Nested (count : Int) (text : List Char) : Prop :=
  ∀ pre, pre <+: text → 0 ≤ count + depth brace pre

theorem nested_nil {count : Int} (h : 0 ≤ count) : Nested count [] := by
  intro pre hpre
  rw [List.prefix_nil.mp hpre]
  simpa using h

theorem nested_cons {count : Int} {c : Char} :
    Nested count (c :: text) ↔ 0 ≤ count ∧ Nested (count + brace c) text := by
  constructor
  · intro h
    refine ⟨by simpa using h [] (List.nil_prefix), ?_⟩
    intro pre hpre
    have hcons := h (c :: pre) (List.cons_prefix_cons.mpr ⟨rfl, hpre⟩)
    rw [depth_cons] at hcons
    omega
  · rintro ⟨hcount, h⟩ pre hpre
    cases pre with
    | nil => simpa using hcount
    | cons a pre =>
      obtain ⟨rfl, htail⟩ := List.cons_prefix_cons.mp hpre
      have hcons := h pre htail
      rw [depth_cons]
      omega

theorem braceScan_cons {count next : Nat} {c : Char} (h : (next : Int) = count + 1 + brace c) :
    braceScan (count + 1) (c :: text) =
      (c :: (braceScan next text).1, (braceScan next text).2) := by
  have hnext : next = if c = '{' then count + 2 else if c = '}' then count else count + 1 := by
    unfold brace at h
    split_ifs at h ⊢ <;> omega
  rw [braceScan, hnext]

/-- The scan ends at the brace behind a text whose own braces are nested. -/
theorem braceScan_nested {count : Nat} (h : Nested count text)
    (hdepth : count + depth brace text = 0) :
    braceScan (count + 1) (text ++ '}' :: rest) = (text ++ ['}'], 0, rest) := by
  induction text generalizing count with
  | nil =>
    have hcount : count = 0 := by simpa using hdepth
    subst hcount
    rw [List.nil_append, @braceScan_cons _ 0 0 _ (by decide), braceScan_zero]
    rfl
  | cons c text ih =>
    obtain ⟨-, h⟩ := nested_cons.mp h
    rw [depth_cons] at hdepth
    have hpos : 0 ≤ count + brace c := by simpa using h [] List.nil_prefix
    obtain ⟨next, hnext⟩ : ∃ next : Nat, (next : Int) = count + brace c :=
      ⟨_, Int.toNat_of_nonneg hpos⟩
    rw [← hnext] at h
    have hstep : ((next + 1 : Nat) : Int) = count + 1 + brace c := by omega
    rw [List.cons_append, braceScan_cons hstep, ih h (by omega)]
    rfl

/-- What the scan takes to end with a count of zero is a text with nested braces, and a brace. -/
theorem nested_of_braceScan {count : Nat} {taken : List Char}
    (h : braceScan (count + 1) text = (taken, 0, rest)) :
    ∃ field, taken = field ++ ['}'] ∧ Nested count field ∧ count + depth brace field = 0 := by
  induction text generalizing count taken with
  | nil => exact absurd (congrArg (·.2.1) h) (Nat.succ_ne_zero count)
  | cons c text ih =>
    have hlow : -1 ≤ brace c := by
      unfold brace
      split_ifs <;> decide
    obtain ⟨next, hnext⟩ : ∃ next : Nat, (next : Int) = count + 1 + brace c :=
      ⟨_, Int.toNat_of_nonneg (by omega)⟩
    rw [braceScan_cons hnext, Prod.mk.injEq] at h
    obtain ⟨htaken, hrest⟩ := h
    cases next with
    | zero =>
      have hclose : c = '}' := by
        by_contra hne
        unfold brace at hnext hlow
        split_ifs at hnext <;> omega
      have hcount : count = 0 := by
        rw [hclose, show brace '}' = -1 by decide] at hnext
        omega
      refine ⟨[], ?_, nested_nil (by omega), by simp [hcount]⟩
      rw [← htaken, hclose]
      cases text <;> rfl
    | succ next =>
      obtain ⟨field, hfield, hnested, hdepth⟩ := @ih next _ (Prod.ext rfl hrest)
      have hnext' : (next : Int) = count + brace c := by omega
      refine ⟨c :: field, ?_, nested_cons.mpr ⟨by omega, ?_⟩, ?_⟩
      · exact htaken.symm.trans (congrArg (c :: ·) hfield)
      · rwa [← hnext']
      · rw [depth_cons]
        omega

end Nesting

section Splitting

variable {expr post text : List Char} {spec : Option (List Char)}

/-- The text of a field: the expression, and the format spec behind a colon. -/
def fieldText (expr : List Char) (spec : Option (List Char)) : List Char :=
  match spec with
  | some spec => expr ++ ':' :: spec
  | none => expr

theorem fieldText_cons {c : Char} : fieldText (c :: expr) spec = c :: fieldText expr spec := by
  cases spec <;> rfl

theorem splitFrom_cons {d : Int} {c : Char} (h : c = ':' → d ≠ 0) :
    splitFrom d (c :: text) =
      (c :: (splitFrom (d + bracket c) text).1, (splitFrom (d + bracket c) text).2) := by
  rw [splitFrom, bracket]
  split_ifs with hopen hclose hcolon
  · rfl
  · rfl
  · exact absurd hcolon.2 (h hcolon.1)
  · rw [Int.add_zero]

theorem splitFrom_colon : splitFrom 0 (':' :: text) = ([], some text) := by
  rfl

theorem splitFrom_join (d : Int) (text : List Char) :
    fieldText (splitFrom d text).1 (splitFrom d text).2 = text := by
  induction text generalizing d with
  | nil => rfl
  | cons c text ih =>
    by_cases h : c = ':' ∧ d = 0
    · obtain ⟨rfl, rfl⟩ := h
      rw [splitFrom_colon]
      rfl
    · rw [splitFrom_cons (fun hc hd => h ⟨hc, hd⟩), fieldText_cons, ih]

/-- No colon of the expression stands outside brackets, and these are closed where the spec
begins. -/
structure Divides (d : Int) (expr : List Char) (spec : Option (List Char)) : Prop where
  colons : ∀ pre post, expr = pre ++ ':' :: post → d + depth bracket pre ≠ 0
  ends : spec ≠ none → d + depth bracket expr = 0

theorem divides_nil {d : Int} : Divides d [] spec ↔ (spec ≠ none → d = 0) := by
  constructor
  · intro h hspec
    simpa using h.ends hspec
  · intro h
    exact ⟨fun pre post heq => by simp at heq, fun hspec => by simpa using h hspec⟩

theorem divides_cons {d : Int} {c : Char} :
    Divides d (c :: expr) spec ↔ (c = ':' → d ≠ 0) ∧ Divides (d + bracket c) expr spec := by
  constructor
  · intro h
    refine ⟨fun hc => ?_, ⟨fun pre post heq => ?_, fun hspec => ?_⟩⟩
    · simpa using h.colons [] expr (by rw [hc]; rfl)
    · have hpre := h.colons (c :: pre) post (by rw [heq]; rfl)
      rwa [depth_cons, ← Int.add_assoc] at hpre
    · have hends := h.ends hspec
      rwa [depth_cons, ← Int.add_assoc] at hends
  · rintro ⟨hc, h⟩
    refine ⟨fun pre post heq => ?_, fun hspec => ?_⟩
    · cases pre with
      | nil =>
        simp only [List.nil_append, List.cons.injEq] at heq
        simpa using hc heq.1
      | cons a pre =>
        obtain ⟨rfl, htail⟩ := List.cons.inj heq
        rw [depth_cons, ← Int.add_assoc]
        exact h.colons pre post htail
    · rw [depth_cons, ← Int.add_assoc]
      exact h.ends hspec

theorem splitFrom_fieldText {d : Int} :
    splitFrom d (fieldText expr spec) = (expr, spec) ↔ Divides d expr spec := by
  induction expr generalizing d with
  | nil =>
    rw [divides_nil]
    cases spec with
    | none => exact iff_of_true rfl nofun
    | some spec =>
      by_cases hd : d = 0
      · simp [hd, fieldText, splitFrom_colon]
      · simp [hd, fieldText, splitFrom_cons]
  | cons c expr ih =>
    rw [divides_cons, fieldText_cons]
    by_cases h : c = ':' → d ≠ 0
    · rw [splitFrom_cons h, ← ih, and_iff_right h]
      simp [Prod.ext_iff]
    · obtain ⟨rfl, rfl⟩ : c = ':' ∧ d = 0 := by simpa using h
      simp [splitFrom_colon]

end Splitting

section Blanks

variable {text : List Char}

theorem trim_isEmpty : (trim text).isEmpty = true ↔ ∀ c ∈ text, isWhitespace c = true := by
  have hend : (∀ c ∈ trimEnd text, isWhitespace c = true) ↔ ∀ c ∈ text, isWhitespace c = true := by
    constructor
    · intro h c hc
      rw [← List.mem_reverse,
        ← text.reverse.takeWhile_append_dropWhile (p := isWhitespace), List.mem_append] at hc
      obtain hc | hc := hc
      · exact List.mem_takeWhile_imp hc
      · exact h c (List.mem_reverse.mpr hc)
    · intro h c hc
      exact h c (List.mem_reverse.mp (List.dropWhile_sublist _ |>.subset (List.mem_reverse.mp hc)))
  rw [List.isEmpty_iff, trim, trimStart, List.dropWhile_eq_nil_iff, hend]

theorem trim_ne_nil : ¬(trim text).isEmpty = true ↔ ∃ c ∈ text, isWhitespace c = false := by
  rw [trim_isEmpty]
  simp

/-- The text ends with a sign of its own, so that it is printed before the value. -/
def DebugForm (expr : List Char) : Prop :=
  ∃ before, trimEnd expr = before ++ ['='] ∧ (∃ c ∈ before, isWhitespace c = false) ∧
    ∀ c, before.getLast? = some c → c ≠ '=' ∧ c ≠ '!' ∧ c ≠ '<' ∧ c ≠ '>'

theorem debugForm_eq_none : debugForm text = none ↔ ¬DebugForm text := by
  unfold debugForm DebugForm
  constructor
  · rintro h ⟨before, hend, hvisible, hlast⟩
    rw [hend] at h
    dsimp only at h
    rw [List.dropLast_concat, if_pos] at h
    · cases h
    · refine ⟨List.getLast?_concat, trim_ne_nil.mpr hvisible, ?_⟩
      rintro (hc | hc | hc | hc)
      · exact (hlast _ hc).1 rfl
      · exact (hlast _ hc).2.1 rfl
      · exact (hlast _ hc).2.2.1 rfl
      · exact (hlast _ hc).2.2.2 rfl
  · intro h
    rw [if_neg]
    rintro ⟨hsign, hvisible, hlast⟩
    obtain ⟨before, hend⟩ := List.getLast?_eq_some_iff.mp hsign
    rw [hend, List.dropLast_concat] at hvisible hlast
    refine h ⟨before, hend, trim_ne_nil.mp hvisible, fun c hc => ?_⟩
    rw [hc] at hlast
    simpa using hlast

end Blanks

section Parser

variable {E T : Type} {sub : SubParser E T} {tok : Token} {raw chars : List Char}
  {exprs out : List (FStrPart E)}

/-- The part that a literal text is, where it is not empty. -/
def textParts (sub : SubParser E T) (tok : Token) (text : List Char) : List (FStrPart E) :=
  if text = [] then [] else [⟨sub.str text tok.spanOf, none⟩]

theorem pushText_eq : pushText sub tok raw exprs =
    exprs ++ textParts sub tok (undouble '}' (undouble '{' raw)) := by
  unfold pushText textParts
  cases raw with
  | nil => simp [undouble]
  | cons c raw =>
    rw [List.isEmpty_cons, if_neg Bool.false_ne_true]
    simp only [List.isEmpty_iff]
    split_ifs <;> simp

theorem scan_pair {i : Nat} {c : Char} (h : isBrace c = true) :
    scan sub tok i raw exprs (c :: c :: chars) =
      scan sub tok (i + 2) (raw ++ [c, c]) exprs chars := by
  rw [scan]
  simp only [isBrace, Bool.or_eq_true, beq_iff_eq] at h
  obtain rfl | rfl := h
  · simp
  · simp

theorem scan_plain {i : Nat} {c : Char} (h : isBrace c = false) :
    scan sub tok i raw exprs (c :: chars) = scan sub tok (i + 1) (raw ++ [c]) exprs chars := by
  simp only [isBrace, Bool.or_eq_false_iff, beq_eq_false_iff_ne] at h
  rw [scan, if_neg h.1, if_neg h.2]

/-- Literal text is passed over. -/
theorem scan_double (text : List Char) (i : Nat) (raw : List Char) :
    scan sub tok i raw exprs (double isBrace text ++ chars) =
      scan sub tok (i + (double isBrace text).length) (raw ++ double isBrace text) exprs chars := by
  induction text generalizing i raw with
  | nil => simp
  | cons c text ih =>
    cases h : isBrace c with
    | true =>
      rw [double_cons_pos h, List.cons_append, List.cons_append, scan_pair h, ih]
      simp [Nat.add_assoc, Nat.add_comm 2]
    | false =>
      rw [double_cons_neg h, List.cons_append, scan_plain h, ih]
      simp [Nat.add_assoc, Nat.add_comm 1]

/-- What a field does, where the scan of its braces ends. -/
theorem scan_field {i : Nat} {taken rest : List Char} (hopen : chars.head? ≠ some '{')
    (h : braceScan 1 chars = (taken, 0, rest)) :
    (∀ out, parseField sub tok (i + 1) (i + 1 + taken.length) taken.dropLast
        (pushText sub tok raw exprs) = .ok out →
      scan sub tok i raw exprs ('{' :: chars) = scan sub tok (i + 1 + taken.length) [] out rest) ∧
    ∀ e, parseField sub tok (i + 1) (i + 1 + taken.length) taken.dropLast
        (pushText sub tok raw exprs) = .error e →
      scan sub tok i raw exprs ('{' :: chars) = .error e := by
  rw [scan, if_pos rfl, if_neg hopen]
  constructor
  · intro out hparse
    simp only [h, lt_irrefl, if_false, hparse]
  · intro e hparse
    simp only [h, lt_irrefl, if_false, hparse]

/-- The tokens of a text are parsed to an expression, whatever of them is left. -/
def SubParser.Accepts (sub : SubParser E T) (fileId : Nat) (expr : List Char) (ast : E) : Prop :=
  ∃ tokens rest, sub.tokenise expr fileId = .ok tokens ∧ sub.parseExpr tokens = .ok (ast, rest)

def SubParser.AcceptsInFull (sub : SubParser E T) (fileId : Nat) (expr : List Char) (ast : E) :
    Prop :=
  ∃ tokens rest, sub.tokenise expr fileId = .ok tokens ∧ sub.parseExpr tokens = .ok (ast, rest) ∧
    sub.atEof rest = true

theorem SubParser.AcceptsInFull.accepts {fileId : Nat} {expr : List Char} {ast : E}
    (h : sub.AcceptsInFull fileId expr ast) : sub.Accepts fileId expr ast := by
  obtain ⟨tokens, rest, htokens, hparse, -⟩ := h
  exact ⟨tokens, rest, htokens, hparse⟩

theorem parseField_ok {start stop : Nat} {expr : List Char} {spec : Option (List Char)} {ast : E}
    (hdivides : Divides 0 expr spec) (hvisible : ∃ c ∈ expr, isWhitespace c = false)
    (hplain : ¬DebugForm expr) (h : sub.Accepts tok.fileId expr ast) :
    parseField sub tok start stop (fieldText expr spec) exprs = .ok (exprs ++ [⟨ast, spec⟩]) := by
  obtain ⟨tokens, rest, htokens, hparse⟩ := h
  have hsplit : splitFstringSpec (fieldText expr spec) = (expr, spec) :=
    splitFrom_fieldText.mpr hdivides
  unfold parseField
  rw [hsplit]
  dsimp only
  rw [if_neg (trim_ne_nil.mpr hvisible), debugForm_eq_none.mpr hplain]
  dsimp only
  rw [htokens]
  dsimp only
  rw [hparse]

/-- A field is one part, or the debug form, whose text comes first. -/
theorem parseField_cases {start stop : Nat} {field expr : List Char} {spec : Option (List Char)}
    (hsplit : splitFstringSpec field = (expr, spec))
    (h : parseField sub tok start stop field exprs = .ok out) :
    (∃ c ∈ expr, isWhitespace c = false) ∧
      ((∃ ast, ¬DebugForm expr ∧ sub.Accepts tok.fileId expr ast ∧ out = exprs ++ [⟨ast, spec⟩]) ∨
        ∃ text more, out = exprs ++ ⟨sub.str text tok.spanOf, none⟩ :: more) := by
  unfold parseField at h
  rw [hsplit] at h
  dsimp only at h
  split at h
  next => cases h
  next hvisible =>
    refine ⟨trim_ne_nil.mp hvisible, ?_⟩
    split at h
    next => cases h
    next tokens htokens =>
      split at h
      next => cases h
      next ast rest hparse =>
        cases h
        cases hdebug : debugForm expr with
        | none =>
          rw [hdebug] at htokens
          exact .inl ⟨ast, debugForm_eq_none.mp hdebug, ⟨tokens, rest, htokens, hparse⟩, rfl⟩
        | some shown => exact .inr ⟨shown.1, _, List.append_assoc _ _ _⟩

theorem parseField_extends {start stop : Nat} {field : List Char}
    (h : parseField sub tok start stop field exprs = .ok out) : ∃ more, out = exprs ++ more := by
  obtain ⟨-, ⟨ast, -, -, hout⟩ | ⟨text, more, hout⟩⟩ := parseField_cases rfl h
  · exact ⟨_, hout⟩
  · exact ⟨_, hout⟩

/-- The literal text that is pending comes first. -/
theorem scan_extends {i : Nat} (h : scan sub tok i raw exprs chars = .ok out) :
    ∃ text more, out = pushText sub tok (raw ++ text) exprs ++ more := by
  fun_induction scan sub tok i raw exprs chars with
  | case1 i raw exprs =>
    cases h
    exact ⟨[], [], by simp⟩
  | case2 i raw exprs chars hpair ih =>
    obtain ⟨text, more, hout⟩ := ih h
    exact ⟨_, more, by rw [hout, List.append_assoc]⟩
  | case3 => cases h
  | case4 => cases h
  | case5 i raw exprs chars _ _ _ _ exprs' hfield ih =>
    obtain ⟨text, more, hout⟩ := ih h
    obtain ⟨part, hpart⟩ := parseField_extends hfield
    refine ⟨[], part ++ (textParts sub tok (undouble '}' (undouble '{' text)) ++ more), ?_⟩
    rw [hout, List.nil_append, pushText_eq, hpart, List.append_nil]
    simp only [List.append_assoc]
  | case6 i raw exprs chars hpair _ ih =>
    obtain ⟨text, more, hout⟩ := ih h
    exact ⟨_, more, by rw [hout, List.append_assoc]⟩
  | case7 => cases h
  | case8 i raw exprs c chars _ _ ih =>
    obtain ⟨text, more, hout⟩ := ih h
    exact ⟨_, more, by rw [hout, List.append_assoc]⟩

end Parser

section Parts

variable {E T : Type} {sub : SubParser E T} {tok : Token} {ast : List Char → E}

inductive Part where
  | text (text : List Char)
  | field (expr : List Char) (spec : Option (List Char))

/-- The braces of literal text doubled, a field between single ones. -/
def write : List Part → List Char
  | [] => []
  | .text text :: parts => double isBrace text ++ write parts
  | .field expr spec :: parts => '{' :: fieldText expr spec ++ '}' :: write parts

/-- The parts with adjacent literal text in one, `pending` before them. -/
def merged (sub : SubParser E T) (tok : Token) (ast : List Char → E) (pending : List Char) :
    List Part → List (FStrPart E)
  | [] => textParts sub tok pending
  | .text text :: parts => merged sub tok ast (pending ++ text) parts
  | .field expr spec :: parts =>
    textParts sub tok pending ++ ⟨ast expr, spec⟩ :: merged sub tok ast [] parts

/-- The fields that are cut out and divided as they were written. -/
structure Clean (expr : List Char) (spec : Option (List Char)) : Prop where
  opens : (fieldText expr spec).head? ≠ some '{'
  nested : Nested 0 (fieldText expr spec)
  closed : depth brace (fieldText expr spec) = 0
  divides : Divides 0 expr spec
  visible : ∃ c ∈ expr, isWhitespace c = false
  plain : ¬DebugForm expr

theorem pushText_double {pending : List Char} {exprs : List (FStrPart E)} :
    pushText sub tok (double isBrace pending) exprs = exprs ++ textParts sub tok pending := by
  have h := @undouble_braces pending []
  rw [List.append_nil] at h
  rw [pushText_eq, h, show undouble '}' (undouble '{' []) = [] from rfl, List.append_nil]

theorem head?_closed {field rest : List Char} (h : field.head? ≠ some '{') :
    (field ++ '}' :: rest).head? ≠ some '{' := by
  cases field with
  | nil => simp
  | cons c field => simpa using h

/-- Clean fields are read as they were written, with nothing said of the tokens they leave. -/
theorem scan_write {parts : List Part}
    (hclean : ∀ expr spec, .field expr spec ∈ parts → Clean expr spec)
    (haccepts : ∀ expr spec, .field expr spec ∈ parts → sub.Accepts tok.fileId expr (ast expr))
    (i : Nat) (pending : List Char) (exprs : List (FStrPart E)) :
    scan sub tok i (double isBrace pending) exprs (write parts) =
      .ok (exprs ++ merged sub tok ast pending parts) := by
  induction parts generalizing i pending exprs with
  | nil => rw [write, scan_nil, pushText_double, merged]
  | cons part parts ih =>
    have ih := ih (fun expr spec hmem => hclean expr spec (List.mem_cons_of_mem _ hmem))
      (fun expr spec hmem => haccepts expr spec (List.mem_cons_of_mem _ hmem))
    cases part with
    | text text => rw [write, scan_double, ← double_append, ih, merged]
    | field expr spec =>
      have hfield := hclean expr spec List.mem_cons_self
      have hscan : braceScan 1 (fieldText expr spec ++ '}' :: write parts) =
          (fieldText expr spec ++ ['}'], 0, write parts) :=
        @braceScan_nested _ _ 0 hfield.nested (by simpa using hfield.closed)
      have hparse : parseField sub tok (i + 1)
          (i + 1 + (fieldText expr spec ++ ['}']).length) (fieldText expr spec ++ ['}']).dropLast
          (pushText sub tok (double isBrace pending) exprs) =
            .ok (exprs ++ textParts sub tok pending ++ [⟨ast expr, spec⟩]) := by
        rw [List.dropLast_concat, pushText_double]
        exact parseField_ok hfield.divides hfield.visible hfield.plain
          (haccepts expr spec List.mem_cons_self)
      rw [write, List.cons_append, (scan_field (head?_closed hfield.opens) hscan).1 _ hparse]
      have hrest := ih (i + 1 + (fieldText expr spec ++ ['}']).length) []
      rw [double_nil] at hrest
      rw [hrest, merged]
      simp only [List.append_assoc, List.singleton_append]

end Parts

section Verbatim

/-- The parser whose expressions are the texts themselves. -/
def verbatim : SubParser (List Char ⊕ List Char) Char where
  str text _ := .inl text
  tokenise text _ := .ok text
  parseExpr tokens := .ok (.inr tokens, [])
  atEof rest := rest.isEmpty

variable {tok : Token}

theorem verbatim_accepts {fileId : Nat} {expr : List Char} {ast : List Char ⊕ List Char} :
    verbatim.Accepts fileId expr ast ↔ ast = .inr expr := by
  constructor
  · rintro ⟨tokens, rest, htokens, hparse⟩
    cases htokens
    cases hparse
    rfl
  · rintro rfl
    exact ⟨expr, [], rfl, rfl⟩

theorem verbatim_acceptsInFull {fileId : Nat} (expr : List Char) :
    verbatim.AcceptsInFull fileId expr (.inr expr) := ⟨expr, [], rfl, rfl, rfl⟩

/-- Literal text that goes on where a field was written is no field. -/
theorem textParts_ne {pending text : List Char} {spec : Option (List Char)} {expr c}
    {more rest : List (FStrPart (List Char ⊕ List Char))} :
    textParts verbatim tok pending ++ ⟨.inr expr, spec⟩ :: rest ≠
      textParts verbatim tok (pending ++ c :: text) ++ more := by
  intro heq
  unfold textParts at heq
  rw [if_neg (by simp : pending ++ c :: text ≠ []), List.singleton_append] at heq
  split at heq
  next =>
    obtain ⟨hpart, -⟩ := List.cons.inj heq
    cases (FStrPart.mk.inj hpart).1
  next =>
    obtain ⟨hpart, -⟩ := List.cons.inj heq
    have htext : pending = pending ++ c :: text := Sum.inl.inj (FStrPart.mk.inj hpart).1
    have hlen := congrArg List.length htext
    simp only [List.length_append, List.length_cons] at hlen
    omega

/-- Where the texts themselves come back, the fields are clean. -/
theorem clean_of_scan {parts : List Part} {i : Nat} {pending : List Char}
    {exprs : List (FStrPart (List Char ⊕ List Char))}
    (h : scan verbatim tok i (double isBrace pending) exprs (write parts) =
      .ok (exprs ++ merged verbatim tok .inr pending parts)) :
    ∀ expr spec, .field expr spec ∈ parts → Clean expr spec := by
  induction parts generalizing i pending exprs with
  | nil => simp
  | cons part parts ih =>
    cases part with
    | text text =>
      rw [write, scan_double, ← double_append, merged] at h
      intro expr spec hmem
      obtain hmem | hmem := List.mem_cons.mp hmem
      · cases hmem
      · exact ih h expr spec hmem
    | field expr spec =>
      rw [write, List.cons_append, merged] at h
      have hopens : (fieldText expr spec).head? ≠ some '{' := by
        intro hopens
        obtain ⟨rest, hrest⟩ := List.head?_eq_some_iff.mp hopens
        rw [hrest, List.cons_append, scan_pair (by decide)] at h
        obtain ⟨text, more, hout⟩ := scan_extends h
        rw [pushText_eq, List.append_assoc, List.append_cancel_left_eq, List.append_assoc,
          undouble_braces, List.cons_append, List.cons_append, List.nil_append, undouble_pair,
          undouble_cons_of_ne (by decide)] at hout
        exact textParts_ne hout
      obtain ⟨taken, count, rest, hscan⟩ : ∃ taken count rest,
          braceScan 1 (fieldText expr spec ++ '}' :: write parts) = (taken, count, rest) :=
        ⟨_, _, _, rfl⟩
      have hcount : count = 0 := by
        by_contra hne
        rw [scan, if_pos rfl, if_neg (head?_closed hopens)] at h
        simp only [hscan, if_pos (Nat.pos_of_ne_zero hne)] at h
        cases h
      subst hcount
      have hjoin := braceScan_taken 1 (fieldText expr spec ++ '}' :: write parts)
      rw [hscan] at hjoin
      obtain ⟨field, rfl, hnested, hdepth⟩ := @nested_of_braceScan _ _ 0 _ hscan
      have hfield := @scan_field _ _ verbatim tok (double isBrace pending) _ exprs i _ _
        (head?_closed hopens) hscan
      rw [List.dropLast_concat, pushText_double] at hfield
      cases hparse : parseField verbatim tok (i + 1) (i + 1 + (field ++ ['}']).length) field
          (exprs ++ textParts verbatim tok pending) with
      | error e =>
        rw [hfield.2 e hparse] at h
        cases h
      | ok exprs' =>
        rw [hfield.1 exprs' hparse] at h
        obtain ⟨text, more, hout⟩ := scan_extends h
        rw [pushText_eq, List.append_assoc] at hout
        obtain ⟨hvisible, ⟨ast, hplain, haccepts, hexprs⟩ | ⟨shown, more', hexprs⟩⟩ :=
          parseField_cases rfl hparse
        · rw [verbatim_accepts] at haccepts
          subst haccepts hexprs
          simp only [List.append_assoc, List.append_cancel_left_eq, List.singleton_append,
            List.cons.injEq, FStrPart.mk.injEq, Sum.inr.injEq] at hout
          obtain ⟨⟨hexpr, hspec⟩, -⟩ := hout
          have hsplit : splitFrom 0 field = (expr, spec) := Prod.ext hexpr.symm hspec.symm
          have hfield : fieldText expr spec = field := by
            have hback := splitFrom_join 0 field
            rwa [hsplit] at hback
          subst hfield
          have hrest : rest = write parts := by simpa using hjoin
          have hclean : Clean expr spec :=
            ⟨hopens, hnested, by simpa using hdepth, splitFrom_fieldText.mp hsplit,
              hexpr ▸ hvisible, hexpr ▸ hplain⟩
          intro expr' spec' hmem
          obtain hmem | hmem := List.mem_cons.mp hmem
          · cases hmem
            exact hclean
          · have hnext : exprs ++ (textParts verbatim tok pending ++
                ⟨.inr expr, spec⟩ :: merged verbatim tok .inr [] parts) =
              exprs ++ textParts verbatim tok pending ++ [⟨.inr expr, spec⟩] ++
                merged verbatim tok .inr [] parts := by
              simp only [List.append_assoc, List.singleton_append]
            rw [hrest, hsplit, hnext] at h
            exact @ih _ [] _ h expr' spec' hmem
        · subst hexprs
          simp only [List.append_assoc, List.append_cancel_left_eq, List.cons_append,
            List.cons.injEq, FStrPart.mk.injEq] at hout
          cases hout.1.1

end Verbatim

/-- Written parts are parsed back to them, by every parser that accepts each field in full. -/
def ParsedBack (parts : List Part) : Prop :=
  ∀ (E T : Type) (sub : SubParser E T) (tok : Token) (ast : List Char → E),
    tok.value = write parts →
    (∀ expr spec, .field expr spec ∈ parts → sub.AcceptsInFull tok.fileId expr (ast expr)) →
    parseFstring sub tok = .ok (merged sub tok ast [] parts, tok.spanOf)

theorem parseFstring_write {E T : Type} {sub : SubParser E T} {tok : Token} {ast : List Char → E}
    {parts : List Part} (htok : tok.value = write parts)
    (hclean : ∀ expr spec, .field expr spec ∈ parts → Clean expr spec)
    (haccepts : ∀ expr spec, .field expr spec ∈ parts → sub.Accepts tok.fileId expr (ast expr)) :
    parseFstring sub tok = .ok (merged sub tok ast [] parts, tok.spanOf) := by
  have hscan := scan_write hclean haccepts 0 [] []
  rw [double_nil, List.nil_append, ← htok] at hscan
  rw [parseFstring, hscan]

theorem parsedBack_iff {parts : List Part} :
    ParsedBack parts ↔ ∀ expr spec, .field expr spec ∈ parts → Clean expr spec := by
  constructor
  · intro h
    have hback := h _ _ verbatim ⟨write parts, 0, 0, 0, 0, 0⟩ .inr rfl
      fun expr _ _ => verbatim_acceptsInFull expr
    unfold parseFstring at hback
    dsimp only at hback
    split at hback
    next => cases hback
    next exprs hscan =>
      simp only [Except.ok.injEq, Prod.mk.injEq, and_true] at hback
      rw [hback] at hscan
      exact @clean_of_scan _ _ _ [] [] hscan
  · intro hclean E T sub tok ast htok haccepts
    exact parseFstring_write htok hclean fun expr spec hmem => (haccepts expr spec hmem).accepts

/-- A field whose text has something left behind its expression is an error. -/
def RejectsLeftover (parts : List Part) : Prop :=
  ∀ (E T : Type) (sub : SubParser E T) (tok : Token) (ast : List Char → E),
    tok.value = write parts →
    (∀ expr spec, .field expr spec ∈ parts → sub.Accepts tok.fileId expr (ast expr)) →
    (∃ expr spec, .field expr spec ∈ parts ∧
      ¬sub.AcceptsInFull tok.fileId expr (ast expr)) →
    ∃ e, parseFstring sub tok = .error e

/-- Words between blanks, of which the first is the expression. -/
def words : SubParser (List Char) (List Char) where
  str text _ := text
  tokenise text _ := .ok (text.splitOn ' ')
  parseExpr tokens :=
    match tokens with
    | word :: rest => .ok (word, rest)
    | [] => .error "unexpected end"
  atEof rest := rest.isEmpty

end FStrings

end Olive
