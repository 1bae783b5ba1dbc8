import Mathlib.Data.List.DropRight
import TreeFrog.CppPhases
import TreeFrog.Search

/-!
`ErbParser`: from a template to C++ code. The text between the tags becomes string literals, a
tag becomes code, and white space behind a tag may be dropped up to the end of its line.

A position in the template is what is left of it, with the character before.
-/

namespace TreeFrog.ErbParser

open Search CppPhases

/-- A string by its characters. None of the functions below tells two characters from 128 on
apart, but for white space. -/
abbrev QString := List Char

/-- A string literal of the source. -/
def lit (s : String) : QString := s.toList

/-- `QChar::isSpace`. -/
def isSpace (c : Char) : Bool :=
  c = ' ' || (9 ≤ c.toNat && c.toNat ≤ 13) || c.toNat = 0x85 || c.toNat = 0xA0 ||
    c.toNat = 0x1680 || (0x2000 ≤ c.toNat && c.toNat ≤ 0x200A) || c.toNat = 0x2028 ||
    c.toNat = 0x2029 || c.toNat = 0x202F || c.toNat = 0x205F || c.toNat = 0x3000

def isAsciiSpace (c : Char) : Bool := isSpace c && c.toNat < 128

/-- `QString::trimmed`. -/
def trimmed (s : QString) : QString := (s.dropWhile isSpace).rdropWhile isSpace

/-- `semicolonTrim`: white space and semicolons at the end go, until there are none. -/
def semicolonTrim (s : QString) : QString :=
  (s.dropWhile isSpace).rdropWhile fun c => isSpace c || c = ';'

/-- `THtmlParser::trim`. -/
def htmlTrim (s : QString) : QString := (s.dropWhile isAsciiSpace).rdropWhile isAsciiSpace

def isAsciiString (s : QString) : Bool := s.all fun c => c.toNat < 128

/-- `ErbConverter::escapeNewline`. -/
def escapeNewline (s : QString) : QString :=
  s.flatMap fun c =>
    if c = '\\' then ['\\', '\\']
    else if c = '\n' then ['\\', 'n']
    else if c = '\r' then ['\\', 'r']
    else if c = '"' then ['\\', '"']
    else [c]

inductive TrimMode where
  | trimOff
  | normalTrim
  | strongTrim
  deriving DecidableEq, Repr

/-- A part of the generated code: the literal of a text, or the code of a tag. -/
inductive Piece where
  | text (ascii : Bool) (literal : QString)
  | code (src : QString)

def Piece.source : Piece → QString
  | text ascii literal =>
    (if ascii then lit "  responsebody += QLatin1String(\"" else lit "  responsebody += tr(\"") ++
      (literal ++ '"' :: lit ");\n")
  | code src => src

def sourceCode (ps : List Piece) : QString := ps.flatMap Piece.source

def posMatchWith (str s : QString) : Bool := str.isPrefixOf s

/-- `skipWhiteSpacesAndNewLineCode`, if there is nothing else to skip. -/
def skipLoop : QString → Option QString
  | [] => some []
  | c :: s => if c = '\n' then some s else if isAsciiSpace c then skipLoop s else none

def skipWhiteSpacesAndNewLineCode (s : QString) : QString := (skipLoop s).getD s

/-- The loop of `parseQuote`; `m` is the quotation mark and `prev` the character before. The
quote, its last character, and what is left. -/
def quoteLoop (m : Char) : Char → QString → QString × Char × QString
  | prev, [] => ([], prev, [])
  | prev, c :: s =>
    if c = m ∧ prev ≠ '\\' then ([c], c, s)
    else
      let (quote, last, s) := quoteLoop m c s
      (c :: quote, last, s)

/-- `parseQuote`, at a quotation mark. -/
def parseQuote (s : QString) : QString × Char × QString :=
  let m := s.headD '\x00'
  let (quote, last, s) := quoteLoop m m s.tail
  (m :: quote, last, s)

/-- The variables of `parseEndPercentTag`, and the position. -/
structure EndTag where
  string : QString
  defaultVal : QString
  defaultFlag : Bool
  prev : Char
  rest : QString

namespace EndTag

def push (e : EndTag) (str : QString) (last : Char) (rest : QString) : EndTag :=
  if e.defaultFlag then { e with defaultVal := e.defaultVal ++ str, prev := last, rest }
  else { e with string := e.string ++ str, prev := last, rest }

def chop (e : EndTag) : EndTag :=
  if e.defaultFlag then { e with defaultVal := e.defaultVal.dropLast }
  else { e with string := e.string.dropLast }

def result (e : EndTag) (rest : QString) : (QString × QString) × QString :=
  ((e.string, trimmed e.defaultVal), rest)

end EndTag

/-- `parseEndPercentTag` from its loop on, at most `fuel` characters or quotes of it. -/
def parseEndLoop (trimMode : TrimMode) (startTag : QString) :
    ℕ → EndTag → (QString × QString) × QString
  | 0, e => e.result e.rest
  | fuel + 1, e =>
    if e.rest.isEmpty then e.result e.rest
    else if posMatchWith (lit "%>") e.rest then
      let rest := e.rest.drop 2
      if e.prev = '-' ∨ e.prev = '+' then
        e.chop.result (if e.prev = '-' then skipWhiteSpacesAndNewLineCode rest else rest)
      else if trimMode = .normalTrim ∨ trimMode = .strongTrim then
        e.result
          (if startTag = lit "<%" ∨ posMatchWith (lit "<%#") startTag then
            skipWhiteSpacesAndNewLineCode rest
          else rest)
      else e.result rest
    else
      let e :=
        if posMatchWith (lit "%|%") e.rest then
          { e with defaultFlag := true, prev := '%', rest := e.rest.drop 3 }
        else e
      -- past the end there is a NUL
      let c := e.rest.headD '\x00'
      if c = '\'' ∨ c = '"' then
        let (quote, last, rest) := parseQuote e.rest
        parseEndLoop trimMode startTag fuel (e.push quote last rest)
      else parseEndLoop trimMode startTag fuel (e.push [c] c e.rest.tail)

/-- `parseEndPercentTag`: the two strings, and what is left. -/
def parseEndPercentTag (trimMode : TrimMode) (startTag : QString) (prev : Char) (s : QString) :
    (QString × QString) × QString :=
  parseEndLoop trimMode startTag (s.length + 1) ⟨[], [], false, prev, s⟩

/-- The code that writes a value: none for an empty string, else one with or without a
default. -/
def echo (p : QString × QString) (plain : QString → QString)
    (withDefault : QString → QString → QString) : QString :=
  if p.1.isEmpty then []
  else if p.2.isEmpty then plain (semicolonTrim p.1)
  else withDefault (semicolonTrim p.1) (semicolonTrim p.2)

/-- `parsePercentTag` at the start of a tag: what it appends to `srcCode` and to `incCode`, and
what is left. -/
def parsePercentTag (trimMode : TrimMode) (s : QString) : (QString × QString) × QString :=
  let s := s.drop 2
  let c := s.headD '\x00'
  if c = '#' then
    let s := s.tail
    if posMatchWith (lit "include ") s ∨ posMatchWith (lit "include\t") s then
      let (p, s) := parseEndPercentTag trimMode (lit "<%#include") c s
      ((lit "  ", '#' :: p.1 ++ ['\n']), s)
    else
      let (p, s) := parseEndPercentTag trimMode (lit "<%#") c s
      ((lit "  /*" ++ p.1 ++ lit "*/\n", []), s)
  else if c = '=' then
    let s := s.tail
    if posMatchWith (lit "=$") s then
      let (p, s) := parseEndPercentTag trimMode (lit "<%==$") '$' (s.drop 2)
      ((lit "  " ++ echo p (fun v => lit "techoex(" ++ v ++ lit ");\n")
        fun v d => lit "techoex2(" ++ v ++ lit ", (" ++ d ++ lit "));\n", []), s)
    else if posMatchWith (lit "$") s then
      let (p, s) := parseEndPercentTag trimMode (lit "<%=$") '$' (s.drop 1)
      ((lit "  " ++ echo p (fun v => lit "tehex(" ++ v ++ lit ");\n")
        fun v d => lit "tehex2(" ++ v ++ lit ", (" ++ d ++ lit "));\n", []), s)
    else if posMatchWith (lit "=") s then
      let (p, s) := parseEndPercentTag trimMode (lit "<%==") '=' (s.drop 1)
      ((lit "  " ++ echo p
        (fun v => lit "responsebody += QVariant(" ++ v ++ lit ").toString();\n")
        fun v d => lit "\x7b QString ___s = QVariant(" ++ v ++
          lit ").toString(); responsebody += (___s.isEmpty()) ? QVariant(" ++ d ++
          lit ").toString() : ___s; \x7d\n", []), s)
    else
      let (p, s) := parseEndPercentTag trimMode (lit "<%=") c s
      ((lit "  " ++ echo p
        (fun v => lit "responsebody += THttpUtility::htmlEscape(" ++ v ++ lit ");\n")
        fun v d => lit "\x7b QString ___s = QVariant(" ++ v ++
          lit ").toString(); responsebody += (___s.isEmpty()) ? THttpUtility::htmlEscape(" ++ d ++
          lit ") : THttpUtility::htmlEscape(___s); \x7d\n", []), s)
  else
    let (p, s) := parseEndPercentTag trimMode (lit "<%") '%' s
    let str := trimmed p.1
    let str := if str.getLast? = some ';' ∨ str.getLast? = some '{' then str else str ++ [';']
    ((lit "  " ++ str ++ ['\n'], []), s)

def textPiece (text : QString) : List Piece :=
  if text.isEmpty then [] else [.text (isAsciiString text) (escapeNewline text)]

/-- The loop of `parse`, at most `fuel` tags of it: the pieces of `srcCode`, and `incCode`. -/
def parseLoop (trimMode : TrimMode) : ℕ → QString → List Piece × QString
  | 0, _ => ([], [])
  | fuel + 1, s =>
    if s.isEmpty then ([], [])
    else
      match search (lit "<%") s with
      | none => (textPiece s, [])
      | some i =>
        let ((src, inc), rest) := parsePercentTag trimMode (s.drop i)
        let (ps, incs) := parseLoop trimMode fuel rest
        (textPiece (s.take i) ++ .code src :: ps, inc ++ incs)

/-- `parse` trims the lines first, if told to trim strongly. -/
def erbData (trimMode : TrimMode) (erb : QString) : QString :=
  if trimMode = .strongTrim then
    htmlTrim ((((erb.splitOn '\n').map htmlTrim).filter (· ≠ [])).flatMap (· ++ ['\n']))
  else erb

def parse (trimMode : TrimMode) (erb : QString) : List Piece × QString :=
  parseLoop trimMode (erbData trimMode erb).length (erbData trimMode erb)

/-! ### Reading the literals -/

/-- A simple escape sequence of C++. -/
def simpleEscape : Char → Option Char
  | 'n' => some '\n'
  | 'r' => some '\r'
  | 't' => some '\t'
  | 'a' => some '\x07'
  | 'b' => some '\x08'
  | 'v' => some '\x0b'
  | 'f' => some '\x0c'
  | '\\' => some '\\'
  | '"' => some '"'
  | '\'' => some '\''
  | '?' => some '?'
  | _ => none

/-- What a string literal denotes, read from behind its opening quotation mark, and the code
behind it. A literal ends in its line; numeric escape sequences are not read. -/
def readLiteral : QString → Option (QString × QString)
  | [] | ['\\'] => none
  | '"' :: s => some ([], s)
  | '\\' :: d :: s => do
    let c ← simpleEscape d
    let (text, rest) ← readLiteral s
    return (c :: text, rest)
  | c :: s =>
    if c = '\n' ∨ c = '\r' then none
    else do
      let (text, rest) ← readLiteral s
      return (c :: text, rest)

/-- What the literals of the texts denote one after another in a dialect, if each ends at the
quotation mark that was written to end it, and the code behind is left as it is. -/
def denoted (d : Dialect) : List Piece → Option QString
  | [] => some []
  | .code _ :: ps => denoted d ps
  | .text _ literal :: ps => do
    let code := lit ");\n" ++ sourceCode ps
    let (text, rest) ← readLiteral (d.translate (literal ++ '"' :: code))
    if rest = d.translate code then return text ++ (← denoted d ps) else none

/-! ### Templates -/

/-- A text between tags. -/
structure Text where
  text : QString
  noTag : ¬lit "<%" <:+: text

structure Tag where
  body : QString
  nonempty : body ≠ []
  noQuote : '\'' ∉ body ∧ '"' ∉ body
  noEnd : ¬lit "%>" <:+: body

def Tag.erb (t : Tag) : QString := lit "<%" ++ (t.body ++ lit "%>")

/-- A text, and the tags with the texts behind them. -/
structure Template where
  head : Text
  tags : List (Tag × Text)

def tagsErb (tags : List (Tag × Text)) : QString := tags.flatMap fun t => t.1.erb ++ t.2.text

def Template.erb (t : Template) : QString := t.head.text ++ tagsErb t.tags

/-- White space is dropped behind the tag: it ends with `-%>`, or not with `+%>` and is code or a
comment. -/
def Tag.trims (trimMode : TrimMode) (t : Tag) : Bool :=
  t.body.getLast? = some '-' ||
    (t.body.getLast? ≠ some '+' && trimMode ≠ .trimOff && t.body.head? ≠ some '=')

/-- White space up to the end of its line is dropped, with the newline. -/
def dropLine (text : QString) : QString :=
  match text.dropWhile fun c => isAsciiSpace c && c ≠ '\n' with
  | '\n' :: rest => rest
  | _ => text

/-- The same, but at the end of the template a newline may be missing. -/
def dropLineOrEnd (atEnd : Bool) (text : QString) : QString :=
  match text.dropWhile fun c => isAsciiSpace c && c ≠ '\n' with
  | '\n' :: rest => rest
  | [] => if atEnd then [] else text
  | _ => text

/-- The texts behind the tags; `drop` is told whether it is at the last one. -/
def outside (trimMode : TrimMode) (drop : Bool → QString → QString) :
    List (Tag × Text) → QString
  | [] => []
  | (tag, text) :: tags =>
    (if tag.trims trimMode then drop tags.isEmpty text.text else text.text) ++
      outside trimMode drop tags

/-- The literals denote the text outside the tags. -/
def Preserved (d : Dialect) (trimMode : TrimMode) (drop : Bool → QString → QString)
    (t : Template) : Prop :=
  denoted d (parse trimMode t.erb).1 = some (t.head.text ++ outside trimMode drop t.tags)

instance (d : Dialect) (trimMode : TrimMode) (drop : Bool → QString → QString) (t : Template) :
    Decidable (Preserved d trimMode drop t) :=
  inferInstanceAs (Decidable (denoted _ _ = some _))

/-- Where the dialect has trigraphs, the text is free of them. -/
def Text.Free (d : Dialect) (t : Text) : Prop := d.trigraphs → TrigraphFree t.text

instance (d : Dialect) (t : Text) : Decidable (t.Free d) := inferInstanceAs (Decidable (_ → _))

/-- The marker `%|%` is not read right before the end of the tag, nor from a part of it. Behind a
marker the next character is taken as it is. -/
def closed : QString → Bool
  | '%' :: '|' :: '%' :: _ :: rest => closed rest
  | ['%', '|', '%'] => false
  | ['%', '|'] => false
  | _ :: rest => closed rest
  | [] => true

/-! ### Literals -/

lemma readLiteral_escape (s rest : QString) :
    readLiteral (escapeNewline s ++ '"' :: rest) = some (s, rest) := by
  induction s with
  | nil => rfl
  | cons c s ih =>
    rw [escapeNewline] at ih ⊢
    rw [List.flatMap_cons, List.append_assoc]
    split_ifs with h₁ h₂ h₃ h₄
    · subst h₁
      simp [readLiteral, simpleEscape, ih]
    · subst h₂
      simp [readLiteral, simpleEscape, ih]
    · subst h₃
      simp [readLiteral, simpleEscape, ih]
    · subst h₄
      simp [readLiteral, simpleEscape, ih]
    · rw [List.singleton_append, readLiteral, if_neg (by simp [h₂, h₃]), ih]
      · rfl
      all_goals simp [h₁, h₄]

lemma escapeNewline_cons (c : Char) (s : QString) :
    (escapeNewline (c :: s) = c :: escapeNewline s ∧ c ≠ '\\' ∧ c ≠ '\n') ∨
      ∃ x ∈ ['\\', 'n', 'r', '"'], escapeNewline (c :: s) = '\\' :: x :: escapeNewline s := by
  simp only [escapeNewline, List.flatMap_cons]
  split_ifs with h₁ h₂ h₃ h₄
  · exact .inr ⟨'\\', by decide, rfl⟩
  · exact .inr ⟨'n', by decide, rfl⟩
  · exact .inr ⟨'r', by decide, rfl⟩
  · exact .inr ⟨'"', by decide, rfl⟩
  · exact .inl ⟨rfl, h₁, h₂⟩

lemma newline_not_mem_escape (s : QString) : '\n' ∉ escapeNewline s := by
  induction s with
  | nil => simp [escapeNewline]
  | cons c s ih =>
    rcases escapeNewline_cons c s with ⟨heq, -, hn⟩ | ⟨x, hx, heq⟩
    · rw [heq, List.mem_cons, not_or]
      exact ⟨hn.symm, ih⟩
    · rw [heq, List.mem_cons, List.mem_cons, not_or, not_or]
      exact ⟨by decide, by rintro rfl; simp at hx, ih⟩

lemma escapeNewline_eq_cons {s r : QString} {x : Char} (h : escapeNewline s = x :: r)
    (hx : x ≠ '\\') : ∃ s', s = x :: s' ∧ escapeNewline s' = r := by
  cases s with
  | nil => simp [escapeNewline] at h
  | cons c s =>
    rcases escapeNewline_cons c s with ⟨heq, -⟩ | ⟨y, -, heq⟩
    · obtain ⟨rfl, rfl⟩ := List.cons_eq_cons.mp (heq.symm.trans h)
      exact ⟨s, rfl, rfl⟩
    · exact absurd (List.cons_eq_cons.mp (heq.symm.trans h)).1.symm hx

lemma trigraphFree_escape {s : QString} (h : TrigraphFree s) : TrigraphFree (escapeNewline s) := by
  intro p hp
  have hthird : ∀ q ∈ trigraphs, q.1 ≠ '\\' := by simp [trigraphs]
  have hback := hthird p hp
  induction s with
  | nil => simp [escapeNewline]
  | cons c s ih =>
    have ih := ih fun q hq hin => h q hq (hin.trans (List.suffix_cons c s).isInfix)
    rcases escapeNewline_cons c s with ⟨heq, -⟩ | ⟨x, hx, heq⟩
    · rw [heq, List.infix_cons_iff, not_or]
      refine ⟨?_, ih⟩
      rintro ⟨t, ht⟩
      obtain ⟨rfl, hrest⟩ := List.cons_eq_cons.mp ht
      obtain ⟨s, rfl, hrest'⟩ := escapeNewline_eq_cons hrest.symm (by decide)
      obtain ⟨s, rfl, -⟩ := escapeNewline_eq_cons hrest' hback
      exact h p hp ⟨[], s, rfl⟩
    · rw [heq, List.infix_cons_iff, List.infix_cons_iff, not_or, not_or]
      refine ⟨fun hpre => ?_, fun hpre => ?_, ih⟩
      · exact absurd (List.cons_prefix_cons.mp hpre).1 (by decide)
      · rw [← (List.cons_prefix_cons.mp hpre).1] at hx
        simp at hx

lemma denoted_textPiece {d : Dialect} {text : QString} (hfree : d.trigraphs → TrigraphFree text)
    (ps : List Piece) : denoted d (textPiece text ++ ps) = (denoted d ps).map (text ++ ·) := by
  unfold textPiece
  by_cases hempty : text = []
  · subst hempty
    simp
  · have hquote : Inert '"' := by decide
    have hself := translate_eq_self d (newline_not_mem_escape text) fun h =>
      trigraphFree_escape (hfree h)
    rw [if_neg (by simpa using hempty), List.singleton_append, denoted]
    simp only [translate_append d hquote, hself, readLiteral_escape, Option.bind_eq_bind,
      Option.bind_some, if_true]
    cases denoted d ps <;> rfl

/-! ### White space -/

lemma skipLoop_append (text rest : QString) :
    skipLoop (text ++ rest) =
      match text.dropWhile fun c => isAsciiSpace c && c ≠ '\n' with
      | [] => skipLoop rest
      | c :: s => if c = '\n' then some (s ++ rest) else none := by
  induction text with
  | nil => rfl
  | cons c text ih =>
    rw [List.cons_append, skipLoop, List.dropWhile_cons]
    by_cases hc : c = '\n'
    · simp [hc]
    · by_cases hspace : isAsciiSpace c
      · simp [hc, hspace, ih]
      · simp [hc, hspace]

lemma skip_append (text : QString) {rest : QString} (hrest : rest = [] ∨ ∃ r, rest = '<' :: r) :
    skipWhiteSpacesAndNewLineCode (text ++ rest) =
      dropLineOrEnd rest.isEmpty text ++ rest := by
  rw [skipWhiteSpacesAndNewLineCode, skipLoop_append, dropLineOrEnd]
  cases htext : text.dropWhile fun c => isAsciiSpace c && c ≠ '\n' with
  | nil =>
    rcases hrest with rfl | ⟨r, rfl⟩
    · rfl
    · rfl
  | cons c s =>
    by_cases hc : c = '\n'
    · subst hc
      rfl
    · simp [hc]

lemma dropLineOrEnd_suffix (atEnd : Bool) (text : QString) :
    dropLineOrEnd atEnd text <:+ text := by
  rw [dropLineOrEnd]
  have hdrop := List.dropWhile_suffix (fun c => isAsciiSpace c && c ≠ '\n') (l := text)
  split
  · rename_i rest hrest
    exact (List.suffix_cons _ _).trans (hrest ▸ hdrop)
  · split_ifs
    · exact List.nil_suffix
    · exact List.suffix_refl text
  · exact List.suffix_refl text

/-! ### Tags -/

/-- What is left behind the end of a tag. -/
def behind (trimMode : TrimMode) (startTag : QString) (last : Char) (rest : QString) : QString :=
  if last = '-' ∨ last ≠ '+' ∧ trimMode ≠ .trimOff ∧
      (startTag = lit "<%" ∨ posMatchWith (lit "<%#") startTag) then
    skipWhiteSpacesAndNewLineCode rest
  else rest

lemma lit_start : lit "<%" = ['<', '%'] := rfl
lemma lit_end : lit "%>" = ['%', '>'] := rfl
lemma lit_marker : lit "%|%" = ['%', '|', '%'] := rfl

lemma posMatchWith_iff {str s : QString} : posMatchWith str s = true ↔ str <+: s :=
  List.isPrefixOf_iff_prefix

@[simp] lemma push_rest (e : EndTag) (str : QString) (last : Char) (rest : QString) :
    (e.push str last rest).rest = rest := by
  unfold EndTag.push
  split <;> rfl

@[simp] lemma push_prev (e : EndTag) (str : QString) (last : Char) (rest : QString) :
    (e.push str last rest).prev = last := by
  unfold EndTag.push
  split <;> rfl

section Loop

variable (trimMode : TrimMode) (startTag : QString)

lemma parseEndLoop_end {fuel : ℕ} {e : EndTag} {rest : QString} (he : e.rest = lit "%>" ++ rest) :
    (parseEndLoop trimMode startTag (fuel + 1) e).2 = behind trimMode startTag e.prev rest := by
  have hempty : ¬(lit "%>" ++ rest).isEmpty = true := by simp [lit]
  have hmatch : posMatchWith (lit "%>") (lit "%>" ++ rest) = true :=
    posMatchWith_iff.mpr (List.prefix_append _ _)
  have hdrop : (lit "%>" ++ rest).drop 2 = rest := rfl
  rw [parseEndLoop, he, if_neg hempty, if_pos hmatch, hdrop]
  unfold behind
  cases trimMode <;> by_cases hminus : e.prev = '-' <;> by_cases hplus : e.prev = '+' <;>
    simp [hminus, hplus, EndTag.result]

lemma parseEndLoop_char {fuel : ℕ} {e : EndTag} {c : Char} {s : QString} (he : e.rest = c :: s)
    (hc : c ≠ '\'' ∧ c ≠ '"') (hend : ¬lit "%>" <+: c :: s) (hmarker : ¬lit "%|%" <+: c :: s) :
    parseEndLoop trimMode startTag (fuel + 1) e =
      parseEndLoop trimMode startTag fuel (e.push [c] c s) := by
  rw [← posMatchWith_iff] at hend hmarker
  rw [parseEndLoop, he, if_neg (by simp), if_neg hend]
  simp only [if_neg hmarker, he, List.headD_cons, hc.1, hc.2, or_self, if_false, List.tail_cons]

lemma parseEndLoop_marker {fuel : ℕ} {e : EndTag} {c : Char} {s : QString}
    (he : e.rest = lit "%|%" ++ c :: s) (hc : c ≠ '\'' ∧ c ≠ '"') :
    parseEndLoop trimMode startTag (fuel + 1) e =
      parseEndLoop trimMode startTag fuel
        (({ e with defaultFlag := true, prev := '%', rest := c :: s } : EndTag).push [c] c s) := by
  have hmatch : posMatchWith (lit "%|%") (lit "%|%" ++ c :: s) = true :=
    posMatchWith_iff.mpr (List.prefix_append _ _)
  have hend : ¬posMatchWith (lit "%>") (lit "%|%" ++ c :: s) = true := by
    simp [posMatchWith, lit]
  have hdrop : (lit "%|%" ++ c :: s).drop 3 = c :: s := rfl
  rw [parseEndLoop, he, if_neg (by simp [lit]), if_neg hend]
  simp only [if_pos hmatch, hdrop, List.headD_cons, hc.1, hc.2, or_self, if_false, List.tail_cons]

lemma not_end_of_body {c : Char} {body : QString} (hend : ¬lit "%>" <:+: c :: body)
    (rest : QString) : ¬lit "%>" <+: c :: (body ++ (lit "%>" ++ rest)) := by
  rw [lit_end] at hend ⊢
  rintro ⟨t, ht⟩
  cases body with
  | nil => simp at ht
  | cons d body =>
    obtain ⟨rfl, ht'⟩ := List.cons_eq_cons.mp ht
    obtain ⟨rfl, -⟩ := List.cons_eq_cons.mp ht'
    exact hend ⟨[], body, rfl⟩

lemma not_marker_of_body {c : Char} {body : QString}
    (hmarker : ∀ (d : Char) (s : QString), c = '%' → body = '|' :: '%' :: d :: s → False)
    (hmarker' : c = '%' → body = ['|', '%'] → False) (hmarker'' : c = '%' → body = ['|'] → False)
    (rest : QString) : ¬lit "%|%" <+: c :: (body ++ (lit "%>" ++ rest)) := by
  rw [lit_end, lit_marker]
  rintro ⟨t, ht⟩
  obtain ⟨hc, ht⟩ := List.cons_eq_cons.mp ht
  match body with
  | [] => simp at ht
  | [d] =>
    obtain ⟨rfl, -⟩ := List.cons_eq_cons.mp ht
    exact hmarker'' hc.symm rfl
  | [d, d'] =>
    obtain ⟨rfl, ht'⟩ := List.cons_eq_cons.mp ht
    obtain ⟨rfl, -⟩ := List.cons_eq_cons.mp ht'
    exact hmarker' hc.symm rfl
  | d :: d' :: d'' :: s =>
    obtain ⟨rfl, ht'⟩ := List.cons_eq_cons.mp ht
    obtain ⟨rfl, -⟩ := List.cons_eq_cons.mp ht'
    exact hmarker d'' s hc.symm rfl

lemma noQuote_cons {c : Char} {body : QString} (h : '\'' ∉ c :: body ∧ '"' ∉ c :: body) :
    (c ≠ '\'' ∧ c ≠ '"') ∧ '\'' ∉ body ∧ '"' ∉ body := by
  simp only [List.mem_cons, not_or] at h
  exact ⟨⟨Ne.symm h.1.1, Ne.symm h.2.1⟩, h.1.2, h.2.2⟩

/-- **The end of a tag**: the loop ends there, unless it reads the marker last. -/
lemma parseEndLoop_body (rest : QString) {body : QString} (hquote : '\'' ∉ body ∧ '"' ∉ body)
    (hend : ¬lit "%>" <:+: body) (hclosed : closed body = true) (e : EndTag)
    (he : e.rest = body ++ (lit "%>" ++ rest)) {fuel : ℕ} (hfuel : body.length < fuel) :
    (parseEndLoop trimMode startTag fuel e).2 =
      behind trimMode startTag (body.getLastD e.prev) rest := by
  obtain ⟨fuel, rfl⟩ := Nat.exists_eq_add_of_lt (Nat.zero_lt_of_lt hfuel)
  rw [Nat.zero_add] at hfuel ⊢
  induction body using closed.induct generalizing fuel e with
  | case1 c body ih =>
    -- the marker and the character behind it
    obtain ⟨hc, hquote'⟩ :=
      noQuote_cons (noQuote_cons (noQuote_cons (noQuote_cons hquote).2).2).2
    simp only [List.length_cons] at hfuel
    obtain ⟨fuel, rfl⟩ : ∃ n, fuel = n + 1 := ⟨fuel - 1, by omega⟩
    have hend' : ¬lit "%>" <:+: body := fun h => hend (h.trans (List.suffix_append
      ['%', '|', '%', c] body).isInfix)
    have he' : e.rest = lit "%|%" ++ c :: (body ++ (lit "%>" ++ rest)) := he
    rw [parseEndLoop_marker trimMode startTag he' hc,
      ih hquote' hend' (by simpa [closed] using hclosed) _ (push_rest _ _ _ _) fuel (by omega),
      push_prev]
    simp only [List.getLastD_cons]
  | case2 => simp [closed] at hclosed
  | case3 => simp [closed] at hclosed
  | case4 c body hmarker hmarker' hmarker'' ih =>
    obtain ⟨hc, hquote'⟩ := noQuote_cons hquote
    rw [List.length_cons] at hfuel
    obtain ⟨fuel, rfl⟩ : ∃ n, fuel = n + 1 := ⟨fuel - 1, by omega⟩
    have hclosed' : closed body = true := by
      rw [closed] at hclosed
      · exact hclosed
      all_goals assumption
    have he' : e.rest = c :: (body ++ (lit "%>" ++ rest)) := he
    rw [parseEndLoop_char trimMode startTag he' hc (not_end_of_body hend rest)
        (not_marker_of_body hmarker hmarker' hmarker'' rest),
      ih hquote' (fun h => hend (h.trans (List.suffix_cons c body).isInfix)) hclosed' _
        (push_rest _ _ _ _) fuel (by omega), push_prev, List.getLastD_cons]
  | case5 => exact parseEndLoop_end trimMode startTag he

end Loop

/-- A body, or what is left of one behind its first characters. -/
structure Body (body : QString) : Prop where
  noQuote : '\'' ∉ body ∧ '"' ∉ body
  noEnd : ¬lit "%>" <:+: body
  closed : closed body = true

lemma Body.tail {c : Char} {body : QString} (h : Body (c :: body)) (hc : c ≠ '%') :
    Body body := by
  refine ⟨(noQuote_cons h.noQuote).2, fun hend => h.noEnd (hend.trans
    (List.suffix_cons c body).isInfix), ?_⟩
  have hclosed := h.closed
  rw [ErbParser.closed] at hclosed
  · exact hclosed
  all_goals simp [hc]

lemma Body.of_append {p body : QString} (h : Body (p ++ body)) (hp : '%' ∉ p) : Body body := by
  induction p with
  | nil => exact h
  | cons c p ih =>
    obtain ⟨hc, hp⟩ : '%' ≠ c ∧ '%' ∉ p := by simpa using hp
    exact ih (h.tail hc.symm) hp

lemma posMatch_body {p body rest : QString} (hp : '%' ∉ p)
    (h : posMatchWith p (body ++ (lit "%>" ++ rest)) = true) : ∃ b, body = p ++ b := by
  rw [posMatchWith_iff] at h
  induction p generalizing body with
  | nil => exact ⟨body, rfl⟩
  | cons c p ih =>
    obtain ⟨hc, hp⟩ : '%' ≠ c ∧ '%' ∉ p := by simpa using hp
    cases body with
    | nil => exact absurd (List.cons_prefix_cons.mp h).1.symm hc
    | cons d body =>
      obtain ⟨rfl, hrest⟩ := List.cons_prefix_cons.mp h
      obtain ⟨b, rfl⟩ := ih hp hrest
      exact ⟨b, rfl⟩

lemma behind_eq (trimMode : TrimMode) {startTag rest : QString} {last : Char} {tag : Tag}
    (hlast : tag.body.getLast? = some last)
    (hstart : startTag = lit "<%" ∨ posMatchWith (lit "<%#") startTag ↔
      tag.body.head? ≠ some '=') :
    behind trimMode startTag last rest =
      if tag.trims trimMode then skipWhiteSpacesAndNewLineCode rest else rest := by
  refine if_congr ?_ rfl rfl
  rw [hstart, Tag.trims, hlast]
  simp [and_assoc]

lemma parseEndPercentTag_tag (trimMode : TrimMode) (startTag p : QString) {body rest : QString}
    {prev : Char} {tag : Tag} (htag : tag.body = p ++ body) (hclosed : closed tag.body = true)
    (hp : '%' ∉ p)
    (hprev : p.getLast? = some prev ∨ p = [])
    (hstart : startTag = lit "<%" ∨ posMatchWith (lit "<%#") startTag ↔
      tag.body.head? ≠ some '=') :
    (parseEndPercentTag trimMode startTag prev (body ++ (lit "%>" ++ rest))).2 =
      if tag.trims trimMode then skipWhiteSpacesAndNewLineCode rest else rest := by
  have hbody : Body (p ++ body) := htag ▸ ⟨tag.noQuote, tag.noEnd, hclosed⟩
  obtain ⟨hquote, hend, hclosed'⟩ := hbody.of_append hp
  have hlast : tag.body.getLast? = some (body.getLastD prev) := by
    rw [htag, List.getLast?_append, List.getLastD_eq_getLast?]
    cases hb : body.getLast? with
    | some last => rfl
    | none =>
      rcases hprev with hprev | rfl
      · simp [hprev]
      · rw [List.getLast?_eq_none_iff.mp hb] at htag
        exact absurd htag tag.nonempty
  rw [parseEndPercentTag, parseEndLoop_body trimMode startTag rest hquote hend hclosed' _ rfl
    (by simp only [List.length_append]; omega)]
  exact behind_eq trimMode hlast hstart

/-- **A tag** is left at its end, and behind the white space that it trims. -/
lemma parsePercentTag_tag (trimMode : TrimMode) (tag : Tag) (hclosed : closed tag.body = true)
    (rest : QString) :
    (parsePercentTag trimMode (tag.erb ++ rest)).2 =
      if tag.trims trimMode then skipWhiteSpacesAndNewLineCode rest else rest := by
  obtain ⟨c, b, hb⟩ := List.exists_cons_of_ne_nil tag.nonempty
  have herb : (tag.erb ++ rest).drop 2 = c :: (b ++ (lit "%>" ++ rest)) := by
    simp [Tag.erb, hb, lit_start]
  have hhead : tag.body.head? = some c := by rw [hb, List.head?_cons]
  simp only [parsePercentTag, herb, List.headD_cons, List.tail_cons]
  by_cases hhash : c = '#'
  · subst hhash
    rw [if_pos rfl]
    split
    · -- `<%#include`
      exact parseEndPercentTag_tag trimMode (lit "<%#include") ['#'] hb hclosed (by decide)
        (.inl rfl) (by rw [hhead]; decide)
    · -- a comment
      exact parseEndPercentTag_tag trimMode (lit "<%#") ['#'] hb hclosed (by decide) (.inl rfl)
        (by rw [hhead]; decide)
  rw [if_neg hhash]
  by_cases heq : c = '='
  · subst heq
    rw [if_pos rfl]
    by_cases hex : posMatchWith (lit "=$") (b ++ (lit "%>" ++ rest)) = true
    · rw [if_pos hex]
      -- `<%==$`
      obtain ⟨b, rfl⟩ := posMatch_body (by decide) hex
      exact parseEndPercentTag_tag trimMode (lit "<%==$") (lit "==$") hb hclosed (by decide)
        (.inl rfl) (by rw [hhead]; decide)
    rw [if_neg hex]
    by_cases he2 : posMatchWith (lit "$") (b ++ (lit "%>" ++ rest)) = true
    · rw [if_pos he2]
      -- `<%=$`
      obtain ⟨b, rfl⟩ := posMatch_body (by decide) he2
      exact parseEndPercentTag_tag trimMode (lit "<%=$") (lit "=$") hb hclosed (by decide)
        (.inl rfl) (by rw [hhead]; decide)
    rw [if_neg he2]
    by_cases he1 : posMatchWith (lit "=") (b ++ (lit "%>" ++ rest)) = true
    · rw [if_pos he1]
      -- `<%==`
      obtain ⟨b, rfl⟩ := posMatch_body (by decide) he1
      exact parseEndPercentTag_tag trimMode (lit "<%==") (lit "==") hb hclosed (by decide)
        (.inl rfl) (by rw [hhead]; decide)
    · rw [if_neg he1]
      exact parseEndPercentTag_tag trimMode (lit "<%=") ['='] hb hclosed (by decide) (.inl rfl)
        (by rw [hhead]; decide)
  · rw [if_neg heq]
    exact parseEndPercentTag_tag trimMode (lit "<%") [] hb hclosed (by decide) (.inr rfl)
      (by rw [hhead]; simp [heq])

/-! ### The whole template -/

lemma search_start {text : QString} (h : ¬lit "<%" <:+: text) (rest : QString) :
    search (lit "<%") (text ++ (lit "<%" ++ rest)) = some text.length := by
  rw [lit_start] at h ⊢
  induction text with
  | nil => exact search_eq_zero ⟨rest, rfl⟩
  | cons c text ih =>
    have hno : ¬['<', '%'] <+: c :: (text ++ (['<', '%'] ++ rest)) := by
      rintro ⟨t, ht⟩
      cases text with
      | nil => simp at ht
      | cons d text =>
        obtain ⟨rfl, ht'⟩ := List.cons_eq_cons.mp ht
        obtain ⟨rfl, -⟩ := List.cons_eq_cons.mp ht'
        exact h ⟨[], text, rfl⟩
    rw [List.cons_append, search_cons_of_not hno,
      ih fun hin => h (hin.trans (List.suffix_cons c text).isInfix)]
    rfl

lemma search_none {text : QString} (h : ¬lit "<%" <:+: text) : search (lit "<%") text = none :=
  search_eq_none_iff.mpr fun j _ hpre => h (hpre.isInfix.trans (List.drop_suffix j text).isInfix)

@[simp] lemma tagsErb_nil : tagsErb [] = [] := rfl

@[simp] lemma tagsErb_cons (tag : Tag) (text : Text) (tags : List (Tag × Text)) :
    tagsErb ((tag, text) :: tags) = tag.erb ++ (text.text ++ tagsErb tags) := by
  simp [tagsErb]

lemma tagsErb_cases (tags : List (Tag × Text)) :
    (tagsErb tags).isEmpty = tags.isEmpty ∧
      (tagsErb tags = [] ∨ ∃ r, tagsErb tags = '<' :: r) := by
  cases tags with
  | nil => exact ⟨rfl, .inl rfl⟩
  | cons e tags => exact ⟨rfl, .inr ⟨_, rfl⟩⟩

lemma behind_text (d : Dialect) (trimMode : TrimMode) (tag : Tag) (text : Text)
    (tags : List (Tag × Text)) :
    ∃ rest : Text, rest.text.length ≤ text.text.length ∧ (text.Free d → rest.Free d) ∧
      (if tag.trims trimMode then skipWhiteSpacesAndNewLineCode (text.text ++ tagsErb tags)
        else text.text ++ tagsErb tags) = rest.text ++ tagsErb tags ∧
      rest.text =
        if tag.trims trimMode then dropLineOrEnd tags.isEmpty text.text else text.text := by
  obtain ⟨hempty, hstart⟩ := tagsErb_cases tags
  have hsuffix := dropLineOrEnd_suffix tags.isEmpty text.text
  split_ifs with htrims
  · exact ⟨⟨dropLineOrEnd tags.isEmpty text.text,
      fun hin => text.noTag (hin.trans hsuffix.isInfix)⟩, hsuffix.length_le,
      fun hfree h p hp hin => hfree h p hp (hin.trans hsuffix.isInfix), by
        rw [skip_append _ hstart, hempty], rfl⟩
  · exact ⟨text, le_rfl, id, rfl, rfl⟩

lemma parseLoop_template (d : Dialect) (trimMode : TrimMode) (tags : List (Tag × Text))
    (hclosed : ∀ t ∈ tags, closed t.1.body = true ∧ t.2.Free d) (text : Text)
    (hfree : text.Free d) {fuel : ℕ} (hfuel : (text.text ++ tagsErb tags).length ≤ fuel) :
    denoted d (parseLoop trimMode fuel (text.text ++ tagsErb tags)).1 =
      some (text.text ++ outside trimMode dropLineOrEnd tags) := by
  induction tags generalizing text fuel with
  | nil =>
    rw [tagsErb_nil, List.append_nil] at hfuel ⊢
    have hpiece : denoted d (textPiece text.text) = some text.text := by
      simpa [denoted] using denoted_textPiece hfree []
    cases fuel with
    | zero =>
      have hnil := List.length_eq_zero_iff.mp (Nat.le_zero.mp hfuel)
      simp [hnil, parseLoop, denoted, outside]
    | succ fuel =>
      rw [parseLoop, search_none text.noTag]
      split_ifs with hempty
      · simp [List.isEmpty_iff.mp hempty, denoted, outside]
      · simp [hpiece, outside]
  | cons e tags ih =>
    obtain ⟨tag, next⟩ := e
    obtain ⟨⟨htag, hnext⟩, htags⟩ := List.forall_mem_cons.mp hclosed
    -- behind the tag the loop goes on with what its trimming leaves of the next text
    obtain ⟨rest, hlength, hkept, hbehind, hrest⟩ := behind_text d trimMode tag next tags
    rw [tagsErb_cons] at hfuel ⊢
    have herb : tag.erb ++ (next.text ++ tagsErb tags) =
        lit "<%" ++ (tag.body ++ lit "%>" ++ (next.text ++ tagsErb tags)) := by
      simp [Tag.erb]
    have hne : ¬(text.text ++ (tag.erb ++ (next.text ++ tagsErb tags))).isEmpty = true := by
      simp [Tag.erb, lit_start]
    have hlen : tag.erb.length = tag.body.length + 4 := by
      simp only [Tag.erb, lit_start, lit_end, List.length_append, List.length_cons,
        List.length_nil]
      omega
    simp only [List.length_append, hlen] at hfuel
    obtain ⟨fuel, rfl⟩ : ∃ n, fuel = n + 1 := ⟨fuel - 1, by omega⟩
    have hsearch : search (lit "<%") (text.text ++ (tag.erb ++ (next.text ++ tagsErb tags))) =
        some text.text.length := herb ▸ search_start text.noTag _
    have hrestFuel : (rest.text ++ tagsErb tags).length ≤ fuel := by
      rw [List.length_append]
      omega
    have hih := ih htags rest (hkept hnext) hrestFuel
    rw [parseLoop, if_neg hne, hsearch]
    simp only [List.take_left, List.drop_left]
    rw [parsePercentTag_tag trimMode tag htag, hbehind]
    rw [denoted_textPiece hfree, denoted, hih, hrest]
    rfl

/-- **The text of a template**: if no tag reads the default marker last, and no text has a trigraph
of the dialect, the literals denote the text outside the tags, with the white space behind trimmed
tags dropped. -/
theorem parse_template (d : Dialect) {trimMode : TrimMode} (hmode : trimMode ≠ .strongTrim)
    (t : Template) (hclosed : ∀ tag ∈ t.tags, closed tag.1.body = true)
    (hfree : t.head.Free d ∧ ∀ tag ∈ t.tags, tag.2.Free d) :
    Preserved d trimMode dropLineOrEnd t := by
  have hdata : erbData trimMode t.erb = t.erb := if_neg hmode
  rw [Preserved, parse, hdata]
  exact parseLoop_template d trimMode t.tags (fun tag htag => ⟨hclosed tag htag, hfree.2 tag htag⟩)
    t.head hfree.1 le_rfl

/-- White space behind the last tag, and no newline. -/
def blankEnd : Template where
  head := ⟨lit "a?\"\\", by decide⟩
  tags := [(⟨lit " b(); ", by decide, by decide, by decide⟩, ⟨lit "  ", by decide⟩)]

/-- A tag that reads the default marker last. -/
def markerEnd : Template where
  head := ⟨lit "a", by decide⟩
  tags := [(⟨lit "= b %|", by decide, by decide, by decide⟩, ⟨lit "c", by decide⟩)]

/-- A text with a trigraph that stands for a backslash. -/
def trigraphText : Template where
  head := ⟨lit "??/\"); evil(); //", by decide⟩
  tags := []

/-- White space at the end of the template is dropped without a newline, and behind a tag that
reads the marker last the text is taken for the default. Where there are trigraphs a text may end
its literal. -/
theorem not_preserved_at_end :
    ¬Preserved .gnu .normalTrim (fun _ => dropLine) blankEnd ∧
      ¬Preserved .gnu .trimOff (fun _ => dropLine) markerEnd ∧
      ¬Preserved .iso11 .trimOff (fun _ => dropLine) trigraphText := by
  decide +kernel

theorem parse_template_blankEnd : Preserved .iso11 .normalTrim dropLineOrEnd blankEnd :=
  parse_template .iso11 (by decide) blankEnd (by decide) (by decide)

end TreeFrog.ErbParser
