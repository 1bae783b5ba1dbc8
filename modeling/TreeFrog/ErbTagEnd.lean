import TreeFrog.ErbParser

/-!
Where `ErbParser` ends a tag. A tag is code, written in tokens, or a comment, and may have a
default part behind a marker.

The parser takes a literal to end at the first quotation mark that is not behind a backslash, treats
a comment like code, and does not look at the character behind a marker. It ends a tag where it
should exactly if read in this way both parts are complete in themselves.
-/

namespace TreeFrog.ErbTagEnd

open ErbParser CppPhases

/-! ### Tags -/

/-- An element of a literal: a character, or an escape sequence with its first character. -/
inductive Element where
  | char (c : Char)
  | escape (c : Char)

def Element.text : Element → QString
  | char c => [c]
  | escape c => ['\\', c]

def isQuote (c : Char) : Bool := c = '\'' || c = '"'

/-- A string or character literal of C++. -/
structure Literal where
  mark : Char
  elements : List Element
  isQuote : isQuote mark
  proper : ∀ c, .char c ∈ elements → c ≠ mark ∧ c ≠ '\\'

inductive Token where
  | literal (l : Literal)
  | other (c : Char) (h : isQuote c = false)

def Literal.text (l : Literal) : QString :=
  l.mark :: (l.elements.flatMap Element.text ++ [l.mark])

def Token.text : Token → QString
  | literal l => l.text
  | other c _ => [c]

def Token.percent : Token := .other '%' rfl

def Token.greater : Token := .other '>' rfl

/-- A sequence of tokens without an end of a tag outside the literals. -/
def IsCode (s : QString) : Prop :=
  ∃ ts : List Token, ts.flatMap Token.text = s ∧ ¬ [Token.percent, Token.greater] <:+: ts

/-- The kinds of tags: `<%`, `<%#`, `<%=`, `<%==`, `<%=$` and `<%==$`. -/
inductive Kind where
  | code
  | comment
  | escaped
  | raw
  | eh
  | echo
  deriving DecidableEq, Repr

namespace Kind

def marker : Kind → QString
  | code => lit "<%"
  | comment => lit "<%#"
  | escaped => lit "<%="
  | raw => lit "<%=="
  | eh => lit "<%=$"
  | echo => lit "<%==$"

/-- The last character of the marker. -/
def last : Kind → Char
  | code => '%'
  | comment => '#'
  | escaped => '='
  | raw => '='
  | eh => '$'
  | echo => '$'

/-- A body that does not make the tag one of another kind. -/
def Begins (k : Kind) (body : QString) : Prop :=
  match k with
  | code => body.head? ≠ some '#' ∧ body.head? ≠ some '='
  | comment => ¬ lit "include " <+: body ∧ ¬ lit "include\t" <+: body
  | escaped => body.head? ≠ some '=' ∧ body.head? ≠ some '$'
  | raw => body.head? ≠ some '$'
  | eh => True
  | echo => True

/-- What is appended to `srcCode` for a tag. -/
def emit (k : Kind) (p : QString × QString) : QString :=
  lit "  " ++ match k with
  | code =>
    let str := trimmed p.1
    let str := if str.getLast? = some ';' ∨ str.getLast? = some '{' then str else str ++ [';']
    str ++ ['\n']
  | comment => lit "/*" ++ p.1 ++ lit "*/\n"
  | escaped =>
    ErbParser.echo p (fun v => lit "responsebody += THttpUtility::htmlEscape(" ++ v ++ lit ");\n")
      fun v d => lit "\x7b QString ___s = QVariant(" ++ v ++
        lit ").toString(); responsebody += (___s.isEmpty()) ? THttpUtility::htmlEscape(" ++ d ++
        lit ") : THttpUtility::htmlEscape(___s); \x7d\n"
  | raw =>
    ErbParser.echo p (fun v => lit "responsebody += QVariant(" ++ v ++ lit ").toString();\n")
      fun v d => lit "\x7b QString ___s = QVariant(" ++ v ++
        lit ").toString(); responsebody += (___s.isEmpty()) ? QVariant(" ++ d ++
        lit ").toString() : ___s; \x7d\n"
  | eh =>
    ErbParser.echo p (fun v => lit "tehex(" ++ v ++ lit ");\n")
      fun v d => lit "tehex2(" ++ v ++ lit ", (" ++ d ++ lit "));\n"
  | echo =>
    ErbParser.echo p (fun v => lit "techoex(" ++ v ++ lit ");\n")
      fun v d => lit "techoex2(" ++ v ++ lit ", (" ++ d ++ lit "));\n"

end Kind

/-- A code part and a default part, with the marker between them. -/
def bodyText (code : QString) (default : Option QString) : QString :=
  code ++ default.elim [] fun d => lit "%|%" ++ d

/-- A tag of code, written in tokens, or a comment with any text free of `%>`. -/
structure ErbTag where
  kind : Kind
  code : QString
  default : Option QString
  begins : kind.Begins (bodyText code default)
  proper : if kind = .comment then ¬ lit "%>" <:+: bodyText code default
    else IsCode code ∧ ∀ d ∈ default, IsCode d

def ErbTag.body (t : ErbTag) : QString := bodyText t.code t.default

def ErbTag.erb (t : ErbTag) : QString := t.kind.marker ++ (t.body ++ lit "%>")

/-- The character in front of the end. -/
def ErbTag.last (t : ErbTag) : Char := t.body.getLastD t.kind.last

/-! ### The end of the loop -/

/-- The marker in front of the default part. -/
def skipMarker (e : EndTag) : EndTag :=
  if posMatchWith (lit "%|%") e.rest then
    { e with defaultFlag := true, prev := '%', rest := e.rest.drop 3 }
  else e

/-- A literal, or one character. -/
def takeNext (e : EndTag) : EndTag :=
  let c := e.rest.headD '\x00'
  if c = '\'' ∨ c = '"' then
    let (quote, last, rest) := parseQuote e.rest
    e.push quote last rest
  else e.push [c] c e.rest.tail

/-- One turn of the loop of `parseEndPercentTag`. -/
def turn (e : EndTag) : EndTag := takeNext (skipMarker e)

/-- The loop ends at the end of the tag, or of the text. -/
def atEnd (e : EndTag) : Bool := e.rest.isEmpty || posMatchWith (lit "%>") e.rest

/-- What the loop does at its end. -/
def finish (trimMode : TrimMode) (startTag : QString) (e : EndTag) :
    (QString × QString) × QString :=
  if e.rest.isEmpty then e.result e.rest
  else
    (if e.prev = '-' ∨ e.prev = '+' then e.chop else e).result
      (behind trimMode startTag e.prev (e.rest.drop 2))

lemma parseEndLoop_atEnd {trimMode : TrimMode} {startTag : QString} {fuel : ℕ} {e : EndTag}
    (h : atEnd e) : parseEndLoop trimMode startTag (fuel + 1) e = finish trimMode startTag e := by
  rw [atEnd, Bool.or_eq_true] at h
  rw [parseEndLoop, finish]
  by_cases hempty : e.rest.isEmpty
  · rw [if_pos hempty, if_pos hempty]
  · rw [if_neg hempty, if_neg hempty, if_pos (h.resolve_left hempty)]
    unfold behind
    cases trimMode <;> by_cases hminus : e.prev = '-' <;> by_cases hplus : e.prev = '+' <;>
      simp [hminus, hplus]

lemma parseEndLoop_turn {trimMode : TrimMode} {startTag : QString} {fuel : ℕ} {e : EndTag}
    (h : ¬ atEnd e) : parseEndLoop trimMode startTag (fuel + 1) e =
      parseEndLoop trimMode startTag fuel (turn e) := by
  rw [atEnd, Bool.or_eq_true, not_or] at h
  rw [parseEndLoop, if_neg h.1, if_neg h.2]
  simp only [turn, takeNext, skipMarker]
  by_cases hmarker : posMatchWith (lit "%|%") e.rest
  · simp only [if_pos hmarker]
    split_ifs <;> rfl
  · simp only [if_neg hmarker]
    split_ifs <;> rfl

lemma quoteLoop_cons (m prev c : Char) (s : QString) :
    quoteLoop m prev (c :: s) =
      if c = m ∧ prev ≠ '\\' then ([c], c, s)
      else (c :: (quoteLoop m c s).1, (quoteLoop m c s).2) := rfl

lemma quoteLoop_length (m prev : Char) (s : QString) :
    (quoteLoop m prev s).1.length + (quoteLoop m prev s).2.2.length = s.length := by
  induction s generalizing prev with
  | nil => rfl
  | cons c s ih =>
    rw [quoteLoop_cons, List.length_cons, ← ih c]
    split_ifs
    · simp [ih c, Nat.add_comm]
    · simp [Nat.add_right_comm]

/-- The characters read and unread; a marker drops out of them. -/
def size (e : EndTag) : ℕ := e.string.length + e.defaultVal.length + e.rest.length

/-- What a turn adds to, without the marker. -/
structure Grows (e e' : EndTag) : Prop where
  string : e.string <+: e'.string
  defaultVal : e.defaultVal <+: e'.defaultVal
  size : size e' ≤ size e
  flag : e.defaultFlag → e'.defaultFlag ∧ e'.string = e.string

lemma Grows.trans {e e' e'' : EndTag} (h : Grows e e') (h' : Grows e' e'') : Grows e e'' :=
  ⟨h.string.trans h'.string, h.defaultVal.trans h'.defaultVal, h'.size.trans h.size, fun hflag =>
    ⟨(h'.flag (h.flag hflag).1).1, (h'.flag (h.flag hflag).1).2.trans (h.flag hflag).2⟩⟩

lemma Grows.refl (e : EndTag) : Grows e e :=
  ⟨List.prefix_rfl, List.prefix_rfl, le_rfl, fun h => ⟨h, rfl⟩⟩

lemma push_grows (e : EndTag) {str rest : QString} (last : Char)
    (h : str.length + rest.length ≤ e.rest.length) : Grows e (e.push str last rest) := by
  unfold EndTag.push
  split_ifs with hflag
  · exact ⟨List.prefix_rfl, List.prefix_append _ _, by simp [size]; omega, fun _ => ⟨hflag, rfl⟩⟩
  · exact ⟨List.prefix_append _ _, List.prefix_rfl, by simp [size]; omega,
      fun h => absurd h hflag⟩

section Take

variable {e : EndTag} {c : Char} {s : QString} (hs : e.rest = c :: s)
include hs

lemma takeNext_quote (hc : isQuote c) : takeNext e =
    e.push (c :: (quoteLoop c c s).1) (quoteLoop c c s).2.1 (quoteLoop c c s).2.2 := by
  have hc' : c = '\'' ∨ c = '"' := by simpa [isQuote] using hc
  simp only [takeNext, hs, List.headD_cons, if_pos hc', parseQuote, List.tail_cons]

lemma takeNext_char (hc : ¬ isQuote c) : takeNext e = e.push [c] c s := by
  have hc' : ¬ (c = '\'' ∨ c = '"') := by simpa [isQuote] using hc
  simp only [takeNext, hs, List.headD_cons, if_neg hc', List.tail_cons]

lemma takeNext_grows : Grows e (takeNext e) ∧ (takeNext e).rest.length < e.rest.length := by
  by_cases hc : isQuote c
  · have hlen := quoteLoop_length c c s
    rw [takeNext_quote hs hc, push_rest, hs]
    refine ⟨push_grows e _ ?_, ?_⟩ <;> simp only [hs, List.length_cons] <;> omega
  · rw [takeNext_char hs hc, push_rest, hs]
    exact ⟨push_grows e c (by rw [hs]; simp [Nat.add_comm]), by simp⟩

end Take

lemma turn_marker {e : EndTag} {s : QString} (hs : e.rest = lit "%|%" ++ s) :
    turn e = takeNext { e with defaultFlag := true, prev := '%', rest := s } := by
  have hmatch : posMatchWith (lit "%|%") e.rest = true :=
    posMatchWith_iff.2 (hs ▸ List.prefix_append _ _)
  rw [turn, skipMarker, if_pos hmatch, hs]
  rfl

lemma turn_of_not {e : EndTag} (h : ¬ posMatchWith (lit "%|%") e.rest) : turn e = takeNext e := by
  rw [turn, skipMarker, if_neg h]

/-- **One turn** only adds to the strings, and leaves less to read; a marker drops out. -/
lemma turn_grows {e : EndTag} (h : ¬ atEnd e) :
    Grows e (turn e) ∧ (turn e).rest.length < e.rest.length ∧
      (posMatchWith (lit "%|%") e.rest → (turn e).defaultFlag ∧ (turn e).string = e.string ∧
        size (turn e) < size e) := by
  rw [atEnd, Bool.or_eq_true, not_or] at h
  by_cases hmarker : posMatchWith (lit "%|%") e.rest
  · obtain ⟨s, hs⟩ := posMatchWith_iff.1 hmarker
    have hlen : e.rest.length = s.length + 3 := by
      rw [← hs]
      simp [lit_marker]
    rw [turn_marker hs.symm]
    set e' : EndTag := { e with defaultFlag := true, prev := '%', rest := s } with he'
    have hgrow : Grows e e' :=
      ⟨List.prefix_rfl, List.prefix_rfl, by simp only [size, he']; omega, fun _ => ⟨rfl, rfl⟩⟩
    have hsize : size e' + 3 = size e := by simp only [size, he']; omega
    cases s with
    | nil =>
      have hnil : takeNext e' = { e' with
          defaultVal := e'.defaultVal ++ ['\x00'], prev := '\x00', rest := [] } := rfl
      rw [hnil]
      have hless : size { e' with
          defaultVal := e'.defaultVal ++ ['\x00'], prev := '\x00', rest := [] } < size e := by
        simp only [size, he', List.length_append, List.length_nil, List.length_singleton] at hsize ⊢
        omega
      exact ⟨⟨List.prefix_rfl, List.prefix_append _ _, hless.le, fun _ => ⟨rfl, rfl⟩⟩,
        by simp [hlen], fun _ => ⟨rfl, rfl, hless⟩⟩
    | cons c s =>
      have hcons : e'.rest = c :: s := rfl
      obtain ⟨hnext, hrest⟩ := takeNext_grows hcons
      have := hnext.size
      rw [hcons] at hrest
      exact ⟨hgrow.trans hnext, hrest.trans (by omega), fun _ =>
        ⟨(hnext.flag rfl).1, (hnext.flag rfl).2, by omega⟩⟩
  · obtain ⟨c, s, hs⟩ := List.exists_cons_of_ne_nil (show e.rest ≠ [] by simpa using h.1)
    rw [turn_of_not hmarker]
    exact ⟨(takeNext_grows hs).1, (takeNext_grows hs).2, fun h => absurd h hmarker⟩

/-- The state in which the loop ends. -/
def endState (e : EndTag) : EndTag := if atEnd e then e else endState (turn e)
termination_by e.rest.length
decreasing_by exact (turn_grows ‹_›).2.1

lemma endState_atEnd {e : EndTag} (h : atEnd e) : endState e = e := by rw [endState, if_pos h]

lemma endState_turn {e : EndTag} (h : ¬ atEnd e) : endState e = endState (turn e) := by
  rw [endState, if_neg h]

lemma endState_grows (e : EndTag) : Grows e (endState e) := by
  induction e using endState.induct with
  | case1 e h =>
    rw [endState_atEnd h]
    exact Grows.refl e
  | case2 e h ih =>
    rw [endState_turn h]
    exact (turn_grows h).1.trans ih

lemma parseEndLoop_eq (trimMode : TrimMode) (startTag : QString) {fuel : ℕ} (e : EndTag)
    (hfuel : e.rest.length < fuel) :
    parseEndLoop trimMode startTag fuel e = finish trimMode startTag (endState e) := by
  induction fuel generalizing e with
  | zero => omega
  | succ fuel ih =>
    by_cases h : atEnd e
    · rw [parseEndLoop_atEnd h, endState_atEnd h]
    · have hlen := (turn_grows h).2.1
      rw [parseEndLoop_turn h, endState_turn h, ih _ (by omega)]

/-! ### What is read as a part of a tag -/

/-- What is behind a literal that begins with `m`, if it is taken to end at the first `m` that is
not behind a backslash; `prev` is the character before. -/
def closeQuote (m : Char) : Char → QString → Option QString
  | _, [] => none
  | prev, c :: s => if c = m ∧ prev ≠ '\\' then some s else closeQuote m c s

lemma closeQuote_length {m prev : Char} {s rest : QString} (h : closeQuote m prev s = some rest) :
    rest.length < s.length := by
  induction s generalizing prev with
  | nil => simp [closeQuote] at h
  | cons c s ih =>
    rw [closeQuote] at h
    split_ifs at h with hc
    · obtain rfl := Option.some.inj h
      simp
    · exact (ih h).trans (by simp)

/-- Read in this way, all literals are closed at the end, and there is no end of a tag and no marker
outside of them, nor one that begins here and takes the first character behind. -/
def plain : QString → Bool
  | [] => true
  | c :: s =>
    if posMatchWith (lit "%>") (c :: s) || posMatchWith (lit "%|%") (c :: s) ||
        c :: s = lit "%|" then false
    else if isQuote c then
      match h : closeQuote c c s with
      | none => false
      | some rest =>
        have _ := closeQuote_length h
        plain rest
    else plain s
termination_by s => s.length

/-- The same behind a marker, where the first character is taken as it is. -/
def plainDefault : QString → Bool
  | [] => false
  | c :: s => if isQuote c then (closeQuote c c s).any plain else plain s

lemma quoteLoop_closed {m prev : Char} {s rest : QString} (h : closeQuote m prev s = some rest)
    (r : QString) : ∃ q, s = q ++ rest ∧ q.getLast? = some m ∧
      quoteLoop m prev (s ++ r) = (q, m, rest ++ r) := by
  induction s generalizing prev with
  | nil => simp [closeQuote] at h
  | cons c s ih =>
    rw [closeQuote] at h
    rw [List.cons_append, quoteLoop_cons]
    split_ifs at h ⊢ with hc
    · obtain rfl := Option.some.inj h
      exact ⟨[c], rfl, by simp [hc.1], by simp [hc.1]⟩
    · obtain ⟨q, hq, hlast, hloop⟩ := ih h
      refine ⟨c :: q, by rw [hq]; rfl, ?_, by rw [hloop]⟩
      cases q with
      | nil => simp at hlast
      | cons d q => exact hlast

lemma quoteLoop_open {m prev : Char} {s : QString} (h : closeQuote m prev s = none)
    (hm : m ≠ '%') (r : QString) :
    ∃ q, (quoteLoop m prev (s ++ '%' :: r)).1 = s ++ '%' :: q := by
  induction s generalizing prev with
  | nil =>
    rw [List.nil_append, quoteLoop_cons, if_neg fun h => hm h.1.symm]
    exact ⟨_, rfl⟩
  | cons c s ih =>
    rw [closeQuote] at h
    split_ifs at h with hc
    obtain ⟨q, hq⟩ := ih h
    rw [List.cons_append, quoteLoop_cons, if_neg hc, hq]
    exact ⟨q, rfl⟩

section Part

variable {e : EndTag} {c : Char} {s r : QString}

lemma posMatch_end {s : QString} : posMatchWith (lit "%>") s ↔ ∃ t, s = '%' :: '>' :: t := by
  rw [posMatchWith_iff, lit_end]
  exact ⟨fun ⟨t, ht⟩ => ⟨t, ht.symm⟩, fun ⟨t, ht⟩ => ⟨t, ht.symm⟩⟩

lemma posMatch_marker {s : QString} :
    posMatchWith (lit "%|%") s ↔ ∃ t, s = '%' :: '|' :: '%' :: t := by
  rw [posMatchWith_iff, lit_marker]
  exact ⟨fun ⟨t, ht⟩ => ⟨t, ht.symm⟩, fun ⟨t, ht⟩ => ⟨t, ht.symm⟩⟩

/-- In front of a `%` there is an end or a marker only where the text has it, or the first two
characters of a marker are the last ones of the text. -/
lemma posMatch_append (c : Char) (s r : QString) :
    (posMatchWith (lit "%>") (c :: s ++ '%' :: r) ↔ posMatchWith (lit "%>") (c :: s)) ∧
      (posMatchWith (lit "%|%") (c :: s ++ '%' :: r) ↔
        posMatchWith (lit "%|%") (c :: s) ∨ c :: s = lit "%|") := by
  rw [posMatch_end, posMatch_end, posMatch_marker, posMatch_marker,
    show lit "%|" = ['%', '|'] from rfl]
  match s with
  | [] => simp
  | [d] => simp
  | d :: d' :: s => simp

lemma plain_cons_quote (hno : ¬ (posMatchWith (lit "%>") (c :: s) ∨
    posMatchWith (lit "%|%") (c :: s) ∨ c :: s = lit "%|")) (hc : isQuote c) :
    plain (c :: s) = (closeQuote c c s).any plain := by
  rw [plain, if_neg (by simpa [or_assoc] using hno), if_pos hc]
  split <;> simp_all

lemma plain_cons_char (hno : ¬ (posMatchWith (lit "%>") (c :: s) ∨
    posMatchWith (lit "%|%") (c :: s) ∨ c :: s = lit "%|")) (hc : ¬ isQuote c) :
    plain (c :: s) = plain s := by
  rw [plain, if_neg (by simpa [or_assoc] using hno), if_neg hc]

lemma plain_cons_bad (h : posMatchWith (lit "%>") (c :: s) ∨
    posMatchWith (lit "%|%") (c :: s) ∨ c :: s = lit "%|") : plain (c :: s) = false := by
  rw [plain, if_pos (by simpa [or_assoc] using h)]

lemma takeNext_cases (he : e.rest = c :: s ++ '%' :: r) :
    (isQuote c ∧ closeQuote c c s = none ∧
      ∃ q last rest, takeNext e = e.push (c :: s ++ '%' :: q) last rest) ∨
    ∃ a b, c :: s = a ++ b ∧ a ≠ [] ∧
      takeNext e = e.push a (a.getLastD e.prev) (b ++ '%' :: r) ∧
      (if isQuote c then closeQuote c c s = some b else s = b) := by
  have he' : e.rest = c :: (s ++ '%' :: r) := he
  by_cases hc : isQuote c
  · have hne : c ≠ '%' := by
      rintro rfl
      exact absurd hc (by decide)
    rw [takeNext_quote he' hc]
    cases hclose : closeQuote c c s with
    | none =>
      obtain ⟨q, hq⟩ := quoteLoop_open hclose hne r
      exact .inl ⟨hc, rfl, q, _, _, by rw [hq]; rfl⟩
    | some b =>
      obtain ⟨q, hq, hlast, hloop⟩ := quoteLoop_closed hclose ('%' :: r)
      refine .inr ⟨c :: q, b, by rw [hq]; rfl, by simp, ?_, by rw [if_pos hc]⟩
      rw [hloop]
      simp [List.getLastD_eq_getLast?, List.getLast?_cons, hlast]
  · rw [takeNext_char he' hc]
    exact .inr ⟨[c], s, rfl, by simp, rfl, by rw [if_neg hc]⟩

/-- **One turn in a part of a tag**, with a `%` behind the part: the end or a marker is found, or a
literal goes on behind the part, or some of it is read. -/
lemma turn_cases (he : e.rest = c :: s ++ '%' :: r) :
    (atEnd e ∧ ¬ plain (c :: s)) ∨
    ¬ atEnd e ∧ ((posMatchWith (lit "%|%") e.rest ∧ ¬ plain (c :: s)) ∨
      (¬ plain (c :: s) ∧ ∃ q last rest, turn e = e.push (c :: s ++ '%' :: q) last rest) ∨
      ∃ a b, c :: s = a ++ b ∧ a ≠ [] ∧ plain (c :: s) = plain b ∧
        turn e = e.push a (a.getLastD e.prev) (b ++ '%' :: r)) := by
  obtain ⟨hend, hmarker⟩ := posMatch_append c s r
  rw [← he] at hend hmarker
  have hatEnd : atEnd e ↔ posMatchWith (lit "%>") (c :: s) := by
    rw [← hend, atEnd, he]
    simp
  by_cases h₁ : posMatchWith (lit "%>") (c :: s)
  · exact .inl ⟨hatEnd.2 h₁, by rw [plain_cons_bad (.inl h₁)]; decide⟩
  refine .inr ⟨fun h => h₁ (hatEnd.1 h), ?_⟩
  by_cases h₂ : posMatchWith (lit "%|%") e.rest
  · exact .inl ⟨h₂, by rw [plain_cons_bad (.inr (hmarker.1 h₂))]; decide⟩
  have hno : ¬ (posMatchWith (lit "%>") (c :: s) ∨ posMatchWith (lit "%|%") (c :: s) ∨
      c :: s = lit "%|") := not_or.2 ⟨h₁, fun h => h₂ (hmarker.2 h)⟩
  rw [turn_of_not h₂]
  refine .inr ?_
  rcases takeNext_cases he with ⟨hc, hclose, hopen⟩ | ⟨a, b, hab, hne, hturn, hread⟩
  · exact .inl ⟨by rw [plain_cons_quote hno hc, hclose]; decide, hopen⟩
  · refine .inr ⟨a, b, hab, hne, ?_, hturn⟩
    split_ifs at hread with hc
    · rw [plain_cons_quote hno hc, hread, Option.any_some]
    · rw [plain_cons_char hno hc, hread]

end Part

/-! ### Whole parts -/

@[simp] lemma push_nil (e : EndTag) : e.push [] e.prev e.rest = e := by
  unfold EndTag.push
  split_ifs <;> simp

lemma push_push (e : EndTag) (a b : QString) (c d : Char) (r r' : QString) :
    (e.push a c r).push b d r' = e.push (a ++ b) d r' := by
  unfold EndTag.push
  split_ifs with h <;> simp [h]

lemma push_flag (e : EndTag) (a : QString) (c : Char) (r : QString) :
    (e.push a c r).defaultFlag = e.defaultFlag := by
  unfold EndTag.push
  split_ifs <;> rfl

lemma push_string {e : EndTag} (h : e.defaultFlag = false) (a : QString) (c : Char)
    (r : QString) : (e.push a c r).string = e.string ++ a := by
  rw [EndTag.push, if_neg (by simp [h])]

lemma push_defaultVal {e : EndTag} (h : e.defaultFlag) (a : QString) (c : Char) (r : QString) :
    (e.push a c r).defaultVal = e.defaultVal ++ a := by
  rw [EndTag.push, if_pos h]

lemma getLastD_append (a b : QString) (c : Char) :
    (a ++ b).getLastD c = b.getLastD (a.getLastD c) := by
  cases b using List.reverseRecOn <;> simp [List.getLastD_eq_getLast?]

section Whole

variable {e : EndTag} {t r : QString} (he : e.rest = t ++ '%' :: r)
include he

lemma endState_plain (h : plain t) :
    endState e = endState (e.push t (t.getLastD e.prev) ('%' :: r)) := by
  induction hn : t.length using Nat.strong_induction_on generalizing e t with
  | _ n ih =>
  cases t with
  | nil =>
    have hrest : '%' :: r = e.rest := he.symm
    rw [List.getLastD_nil, hrest, push_nil]
  | cons c s =>
    rcases turn_cases he with ⟨-, hbad⟩ | ⟨hnot, ⟨-, hbad⟩ | ⟨hbad, -⟩ |
      ⟨a, b, hab, hne, hplain, hturn⟩⟩
    · exact absurd h hbad
    · exact absurd h hbad
    · exact absurd h hbad
    · have hlen : b.length < n := by
        have := congrArg List.length hab
        have := List.length_pos_of_ne_nil hne
        rw [List.length_append] at *
        omega
      rw [endState_turn hnot, hturn, ih _ hlen (push_rest ..) (hplain ▸ h) rfl, push_push,
        push_prev, hab, getLastD_append]

lemma endState_code (hflag : e.defaultFlag = false) (h : ¬ plain t) :
    (endState e).string ≠ e.string ++ t := by
  induction hn : t.length using Nat.strong_induction_on generalizing e t with
  | _ n ih =>
  cases t with
  | nil => simp [plain] at h
  | cons c s =>
    have hself : e.string ≠ e.string ++ c :: s := by simp
    rcases turn_cases he with ⟨hend, -⟩ | ⟨hnot, ⟨hmarker, -⟩ | ⟨-, q, last, rest, hturn⟩ |
      ⟨a, b, hab, hne, hplain, hturn⟩⟩
    · rw [endState_atEnd hend]
      exact hself
    · -- behind a marker nothing is added to the string
      obtain ⟨hflag', hstring, -⟩ := (turn_grows hnot).2.2 hmarker
      rw [endState_turn hnot, ((endState_grows (turn e)).flag hflag').2, hstring]
      exact hself
    · have hgrows := (endState_grows (turn e)).string
      rw [hturn, push_string hflag, ← hturn, ← endState_turn hnot] at hgrows
      intro heq
      have hlen := hgrows.length_le
      simp only [heq, List.length_append, List.length_cons] at hlen
      omega
    · have hlen : b.length < n := by
        have := congrArg List.length hab
        have := List.length_pos_of_ne_nil hne
        rw [List.length_append] at *
        omega
      have hrest := ih _ hlen (push_rest e a (a.getLastD e.prev) _)
        (by rw [push_flag, hflag]) (hplain ▸ h) rfl
      rw [endState_turn hnot, hturn, hab, ← List.append_assoc]
      rwa [push_string hflag] at hrest

lemma endState_default (hflag : e.defaultFlag) (h : ¬ plain t) :
    (endState e).defaultVal ≠ e.defaultVal ++ t ∨ (endState e).rest ≠ '%' :: r := by
  induction hn : t.length using Nat.strong_induction_on generalizing e t with
  | _ n ih =>
  cases t with
  | nil => simp [plain] at h
  | cons c s =>
    rcases turn_cases he with ⟨hend, -⟩ | ⟨hnot, ⟨hmarker, -⟩ | ⟨-, q, last, rest, hturn⟩ |
      ⟨a, b, hab, hne, hplain, hturn⟩⟩
    · rw [endState_atEnd hend]
      exact .inl (by simp)
    · -- the marker is lost
      have hgrows := endState_grows (turn e)
      have hsize := hgrows.size
      have hless := (turn_grows hnot).2.2 hmarker
      rw [endState_turn hnot]
      by_contra heq
      rw [not_or, not_not, not_not] at heq
      have hstring := (hgrows.flag hless.1).2.trans hless.2.1
      have hless := hless.2.2
      simp only [size, heq.1, heq.2, hstring, he, List.length_append] at hsize hless
      omega
    · have hgrows := (endState_grows (turn e)).defaultVal
      rw [hturn, push_defaultVal hflag, ← hturn, ← endState_turn hnot] at hgrows
      refine .inl fun heq => ?_
      have hlen := hgrows.length_le
      simp only [heq, List.length_append, List.length_cons] at hlen
      omega
    · have hlen : b.length < n := by
        have := congrArg List.length hab
        have := List.length_pos_of_ne_nil hne
        rw [List.length_append] at *
        omega
      have hrest := ih _ hlen (push_rest e a (a.getLastD e.prev) _)
        (by rw [push_flag, hflag]) (hplain ▸ h) rfl
      rw [endState_turn hnot, hturn, hab, ← List.append_assoc]
      rwa [push_defaultVal hflag] at hrest

end Whole

lemma atEnd_of_rest {e : EndTag} {rest : QString} (h : e.rest = lit "%>" ++ rest) : atEnd e := by
  rw [atEnd, h, Bool.or_eq_true]
  exact .inr (posMatchWith_iff.2 (List.prefix_append _ _))

section Default

variable {e : EndTag} {d rest : QString} (hflag : e.defaultFlag)
  (he : e.rest = d ++ (lit "%>" ++ rest))
include he

lemma endState_takeNext (h : plainDefault d) :
    endState (takeNext e) = e.push d (d.getLastD e.prev) (lit "%>" ++ rest) := by
  cases d with
  | nil => simp [plainDefault] at h
  | cons c s =>
    rcases takeNext_cases (r := '>' :: rest) he with ⟨hc, hclose, -⟩ | ⟨a, b, hab, -, hnext, hread⟩
    · simp [plainDefault, hc, hclose] at h
    · have hplain : plain b := by
        rw [plainDefault] at h
        split_ifs at h hread
        · simpa [hread] using h
        · rwa [← hread]
      rw [hnext, endState_plain (push_rest ..) hplain, push_push, push_prev, hab, getLastD_append]
      exact endState_atEnd (atEnd_of_rest (push_rest ..))

include hflag in
lemma endState_takeNext_ne (h : ¬ plainDefault d) :
    (endState (takeNext e)).defaultVal ≠ e.defaultVal ++ d ∨
      (endState (takeNext e)).rest ≠ lit "%>" ++ rest := by
  cases d with
  | nil =>
    -- the first character of the end is taken for the default part
    have hgrows := (endState_grows (takeNext e)).defaultVal
    have hrest : e.rest = '%' :: ('>' :: rest) := he
    rw [takeNext_char hrest (by decide), push_defaultVal hflag] at hgrows
    refine .inl fun heq => ?_
    rw [takeNext_char hrest (by decide)] at heq
    have hlen := hgrows.length_le
    simp only [heq, List.length_append, List.length_cons, List.length_nil] at hlen
    omega
  | cons c s =>
    rcases takeNext_cases (r := '>' :: rest) he with ⟨-, -, q, last, rest', hnext⟩ |
      ⟨a, b, hab, -, hnext, hread⟩
    · have hgrows := (endState_grows (takeNext e)).defaultVal
      rw [hnext, push_defaultVal hflag, ← hnext] at hgrows
      refine .inl fun heq => ?_
      have hlen := hgrows.length_le
      simp only [heq, List.length_append, List.length_cons] at hlen
      omega
    · have hplain : ¬ plain b := by
        rw [plainDefault] at h
        split_ifs at h hread
        · simpa [hread] using h
        · rwa [← hread]
      have hne := endState_default (push_rest e a (a.getLastD e.prev) (b ++ '%' :: '>' :: rest))
        (by rw [push_flag, hflag]) hplain
      rw [hnext, hab, ← List.append_assoc]
      rwa [push_defaultVal hflag] at hne

end Default

namespace ErbTag

variable (t : ErbTag)

/-- Where the loop begins, at the body of the tag. -/
def start (rest : QString) : EndTag := ⟨[], [], false, t.kind.last, t.body ++ (lit "%>" ++ rest)⟩

/-- The loop ends exactly at the end of the tag, with the code and the default part as they are. -/
def Ends (rest : QString) : Prop :=
  endState (t.start rest) =
    ⟨t.code, t.default.getD [], t.default.isSome, t.last, lit "%>" ++ rest⟩

/-- Both parts are complete as they are read. -/
def Plain : Prop := plain t.code ∧ ∀ d ∈ t.default, plainDefault d

lemma ends_iff (rest : QString) : t.Ends rest ↔ t.Plain := by
  obtain ⟨kind, code, default, hbegins, hproper⟩ := t
  rw [Ends, Plain]
  cases default with
  | none =>
    have hstart : (start ⟨kind, code, none, hbegins, hproper⟩ rest).rest =
        code ++ '%' :: '>' :: rest := by
      simp [start, body, bodyText, lit_end]
    simp only [Option.getD_none, Option.isSome_none, Option.mem_def, reduceCtorEq,
      false_implies, implies_true, and_true]
    constructor
    · intro h
      by_contra hplain
      exact endState_code hstart rfl hplain (by rw [h]; rfl)
    · intro hplain
      rw [endState_plain hstart hplain]
      refine (endState_atEnd (atEnd_of_rest (push_rest ..))).trans ?_
      simp [EndTag.push, start, last, body, bodyText, lit_end]
  | some d =>
    have hstart : (start ⟨kind, code, some d, hbegins, hproper⟩ rest).rest =
        code ++ '%' :: ('|' :: '%' :: (d ++ (lit "%>" ++ rest))) := by
      simp [start, body, bodyText, lit_marker]
    simp only [Option.getD_some, Option.isSome_some, Option.mem_def, Option.some.injEq,
      forall_eq']
    by_cases hplain : plain code
    · -- the marker, then the default part
      set e := start ⟨kind, code, some d, hbegins, hproper⟩ rest with he
      set e₁ := e.push code (code.getLastD e.prev)
        ('%' :: ('|' :: '%' :: (d ++ (lit "%>" ++ rest)))) with he₁
      have hrest₁ : e₁.rest = lit "%|%" ++ (d ++ (lit "%>" ++ rest)) := push_rest ..
      have hnot : ¬ atEnd e₁ := by
        rw [atEnd, hrest₁]
        simp [posMatchWith, lit]
      set e₂ : EndTag := { e₁ with
        defaultFlag := true, prev := '%', rest := d ++ (lit "%>" ++ rest) } with he₂
      rw [endState_plain hstart hplain, ← he₁, endState_turn hnot, turn_marker hrest₁, ← he₂]
      have hstring : e₂.string = code := push_string rfl ..
      have hdefault : e₂.defaultVal = [] := by simp [he₂, he₁, EndTag.push, he, start]
      constructor
      · intro h
        by_contra hbad
        have hne := endState_takeNext_ne (e := e₂) rfl rfl (fun h' => hbad ⟨hplain, h'⟩)
        rw [h, hdefault] at hne
        simp at hne
      · rintro ⟨-, hd⟩
        rw [endState_takeNext (e := e₂) rfl hd, EndTag.push, if_pos rfl, hstring, hdefault]
        have hlast : (code ++ (lit "%|%" ++ d)).getLastD kind.last = d.getLastD '%' := by
          rw [getLastD_append, lit_marker]
          simp only [List.cons_append, List.nil_append, List.getLastD_cons]
        exact (EndTag.mk.injEq ..).mpr ⟨rfl, rfl, rfl, hlast.symm, rfl⟩
    · refine iff_of_false (fun h => ?_) fun h => hplain h.1
      exact endState_code hstart rfl hplain (by rw [h]; rfl)

end ErbTag

/-! ### Tokens -/

/-- The parser sees the end of a literal unless it is behind an escaped backslash. -/
def Literal.Closes (l : Literal) : Prop := l.elements.getLast? ≠ some (.escape '\\')

lemma isQuote_ne {m c : Char} (hm : isQuote m) (hc : isQuote c = false) : m ≠ c := by
  rintro rfl
  rw [hc] at hm
  exact absurd hm (by decide)

lemma closeQuote_elements {m prev : Char} {es : List Element} (hm : isQuote m)
    (hproper : ∀ c, .char c ∈ es → c ≠ m ∧ c ≠ '\\') (hprev : es = [] → prev ≠ '\\')
    (hlast : es.getLast? ≠ some (.escape '\\')) (rest : QString) :
    closeQuote m prev (es.flatMap Element.text ++ m :: rest) = some rest := by
  have hback : m ≠ '\\' := isQuote_ne hm (by decide)
  induction es generalizing prev with
  | nil => exact if_pos ⟨rfl, hprev rfl⟩
  | cons e es ih =>
    have hproper' : ∀ c, .char c ∈ es → c ≠ m ∧ c ≠ '\\' := fun c hc =>
      hproper c (List.mem_cons_of_mem _ hc)
    have hlast' : es.getLast? ≠ some (.escape '\\') := by
      intro h
      rw [List.getLast?_cons, h] at hlast
      exact hlast rfl
    cases e with
    | char c =>
      obtain ⟨hc, hc'⟩ := hproper c List.mem_cons_self
      rw [List.flatMap_cons, Element.text, List.append_assoc, List.singleton_append, closeQuote,
        if_neg fun h => hc h.1]
      exact ih hproper' (fun _ => hc') hlast'
    | escape c =>
      rw [List.flatMap_cons, Element.text, List.append_assoc, List.cons_append,
        List.singleton_append, closeQuote, if_neg fun h => hback h.1.symm, closeQuote,
        if_neg fun h => h.2 rfl]
      refine ih hproper' (fun hnil hc => hlast ?_) hlast'
      rw [hnil, hc]
      rfl

lemma closeQuote_literal {l : Literal} (h : l.Closes) (rest : QString) :
    closeQuote l.mark l.mark (l.elements.flatMap Element.text ++ l.mark :: rest) = some rest :=
  closeQuote_elements l.isQuote l.proper (fun _ => isQuote_ne l.isQuote (by decide)) h rest

def Token.bar : Token := .other '|' rfl

lemma tokens_cons {ts : List Token} {c : Char} {s : QString} (hc : isQuote c = false)
    (h : ts.flatMap Token.text = c :: s) :
    ∃ ts', ts = .other c hc :: ts' ∧ ts'.flatMap Token.text = s := by
  cases ts with
  | nil => simp at h
  | cons t ts =>
    rw [List.flatMap_cons] at h
    cases t with
    | literal l =>
      have hmark : l.mark = c := (List.cons.inj h).1
      exact absurd hmark (isQuote_ne l.isQuote hc)
    | other d hd =>
      obtain ⟨rfl, hs⟩ := List.cons.inj h
      exact ⟨ts, rfl, hs⟩

/-- **A sequence of tokens is plain** if its literals are seen to end, and there is no marker in it,
nor the first two characters of one at its end. -/
theorem plain_tokens {ts : List Token} (hcloses : ∀ l, .literal l ∈ ts → l.Closes)
    (hend : ¬ [Token.percent, Token.greater] <:+: ts)
    (hmarker : ¬ [Token.percent, Token.bar, Token.percent] <:+: ts)
    (hlast : ¬ [Token.percent, Token.bar] <:+ ts) : plain (ts.flatMap Token.text) := by
  induction ts with
  | nil => simp [plain]
  | cons t ts ih =>
    have hrest : plain (ts.flatMap Token.text) :=
      ih (fun l hl => hcloses l (List.mem_cons_of_mem _ hl))
        (fun h => hend (h.trans (List.suffix_cons t ts).isInfix))
        (fun h => hmarker (h.trans (List.suffix_cons t ts).isInfix))
        (fun h => hlast (h.trans (List.suffix_cons t ts)))
    rw [List.flatMap_cons]
    cases t with
    | literal l =>
      -- a literal begins with a quotation mark, so no mark of the three does
      have hne := isQuote_ne l.isQuote (show isQuote '%' = false by decide)
      rw [Token.text, Literal.text, List.cons_append, plain_cons_quote _ l.isQuote,
        List.append_assoc, List.singleton_append,
        closeQuote_literal (hcloses l List.mem_cons_self), Option.any_some, hrest]
      rw [posMatch_end, posMatch_marker, show lit "%|" = ['%', '|'] from rfl]
      rintro (⟨_, h⟩ | ⟨_, h⟩ | h)
      all_goals exact hne (List.cons.inj h).1
    | other c hc =>
      rw [Token.text, List.singleton_append, plain_cons_char _ (by rw [hc]; decide), hrest]
      rw [posMatch_end, posMatch_marker, show lit "%|" = ['%', '|'] from rfl]
      rintro (⟨_, h⟩ | ⟨_, h⟩ | h)
      · -- the end of a tag
        obtain ⟨rfl, htext⟩ := List.cons.inj h
        obtain ⟨ts', rfl, -⟩ := tokens_cons (by decide) htext
        exact hend ⟨[], ts', rfl⟩
      · -- a whole marker
        obtain ⟨rfl, htext⟩ := List.cons.inj h
        obtain ⟨us, rfl, hbar⟩ := tokens_cons (by decide) htext
        obtain ⟨ts', rfl, -⟩ := tokens_cons (by decide) hbar
        exact hmarker ⟨[], ts', rfl⟩
      · -- the beginning of a marker, at the end of the part
        obtain ⟨rfl, htext⟩ := List.cons.inj h
        obtain ⟨ts', rfl, hbar⟩ := tokens_cons (by decide) htext
        have hnil : ts' = [] := by
          cases ts' with
          | nil => rfl
          | cons t ts' => cases t <;> simp [Token.text, Literal.text] at hbar
        exact hlast (hnil ▸ List.suffix_rfl)

/-! ### What is handed on -/

namespace ErbTag

variable (t : ErbTag)

/-- The code and the default part as they are handed on: a `-` or `+` in front of the end belongs to
it, and white space around the default part is dropped. -/
def handed : QString × QString :=
  let cut (s : QString) := if t.last = '-' ∨ t.last = '+' then s.dropLast else s
  match t.default with
  | none => (cut t.code, [])
  | some d => (t.code, trimmed (cut d))

lemma parseEndPercentTag_eq (trimMode : TrimMode) (rest : QString) (h : t.Plain) :
    parseEndPercentTag trimMode t.kind.marker t.kind.last (t.body ++ (lit "%>" ++ rest)) =
      (t.handed, behind trimMode t.kind.marker t.last rest) := by
  have hstate := (t.ends_iff rest).2 h
  have hloop := parseEndLoop_eq trimMode t.kind.marker (t.start rest) (Nat.lt_succ_self _)
  rw [hstate] at hloop
  refine hloop.trans ?_
  have hempty : ¬ (lit "%>" ++ rest).isEmpty = true := by simp [lit]
  have hdrop : (lit "%>" ++ rest).drop 2 = rest := rfl
  rw [finish, if_neg hempty, hdrop, handed]
  cases t.default <;> by_cases hsign : t.last = '-' ∨ t.last = '+' <;>
    simp [hsign, EndTag.result, EndTag.chop, trimmed]

lemma not_posMatch {p body : QString} (hp : '%' ∉ p) (h : ¬ p <+: body) (rest : QString) :
    ¬ posMatchWith p (body ++ (lit "%>" ++ rest)) := fun hmatch =>
  h ((posMatch_body hp hmatch).elim fun b hb => hb ▸ List.prefix_append p b)

lemma not_prefix_of_head {c : Char} {p body : QString} (h : body.head? ≠ some c) :
    ¬ (c :: p) <+: body := by
  rintro ⟨s, rfl⟩
  exact h rfl

lemma parsePercentTag_eq (trimMode : TrimMode) (rest : QString) :
    parsePercentTag trimMode (t.erb ++ rest) =
      let res := parseEndPercentTag trimMode t.kind.marker t.kind.last
        (t.body ++ (lit "%>" ++ rest))
      ((t.kind.emit res.1, []), res.2) := by
  obtain ⟨kind, code, default, hbegins, -⟩ := t
  simp only [ErbTag.erb, ErbTag.body]
  generalize bodyText code default = body at hbegins
  rw [List.append_assoc, List.append_assoc]
  cases kind with
  | code =>
    obtain ⟨hhash, heq⟩ := hbegins
    -- the body begins with neither `#` nor `=`
    have hhead : ∀ c, body.head? ≠ some c → c ≠ '%' →
        (body ++ (lit "%>" ++ rest)).headD '\x00' ≠ c := by
      intro c hc hne
      cases body with
      | nil => exact hne.symm
      | cons d body => simpa using hc
    have hdrop : (Kind.code.marker ++ (body ++ (lit "%>" ++ rest))).drop 2 =
        body ++ (lit "%>" ++ rest) := rfl
    simp only [parsePercentTag, hdrop]
    rw [if_neg (hhead '#' hhash (by decide)), if_neg (hhead '=' heq (by decide))]
    rfl
  | comment =>
    obtain ⟨hspace, htab⟩ := hbegins
    -- nothing is included
    have hno : ¬ (posMatchWith (lit "include ") (body ++ (lit "%>" ++ rest)) ∨
        posMatchWith (lit "include\t") (body ++ (lit "%>" ++ rest))) :=
      not_or.2 ⟨not_posMatch (by decide) hspace rest, not_posMatch (by decide) htab rest⟩
    have hdrop : (Kind.comment.marker ++ (body ++ (lit "%>" ++ rest))).drop 2 =
        '#' :: (body ++ (lit "%>" ++ rest)) := rfl
    simp only [parsePercentTag, hdrop, List.headD_cons, if_true, List.tail_cons, if_neg hno]
    simp only [Kind.emit, ← List.append_assoc]
    rfl
  | escaped =>
    obtain ⟨heq, hdollar⟩ := hbegins
    have hdrop : (Kind.escaped.marker ++ (body ++ (lit "%>" ++ rest))).drop 2 =
        '=' :: (body ++ (lit "%>" ++ rest)) := rfl
    have h₁ := not_posMatch (p := lit "=$") (by decide) (not_prefix_of_head heq) rest
    have h₂ := not_posMatch (p := lit "$") (by decide) (not_prefix_of_head hdollar) rest
    have h₃ := not_posMatch (p := lit "=") (by decide) (not_prefix_of_head heq) rest
    simp only [parsePercentTag, hdrop, List.headD_cons, List.tail_cons, if_neg h₁, if_neg h₂,
      if_neg h₃]
    rfl
  | raw =>
    have hdrop : (Kind.raw.marker ++ (body ++ (lit "%>" ++ rest))).drop 2 =
        '=' :: '=' :: (body ++ (lit "%>" ++ rest)) := rfl
    have h₁ : ¬ posMatchWith (lit "=$") ('=' :: (body ++ (lit "%>" ++ rest))) := by
      intro h
      have hmatch : posMatchWith (lit "$") (body ++ (lit "%>" ++ rest)) := by
        simpa [posMatchWith, lit] using h
      exact not_posMatch (by decide) (not_prefix_of_head hbegins) rest hmatch
    have h₂ : ¬ posMatchWith (lit "$") ('=' :: (body ++ (lit "%>" ++ rest))) := by
      simp [posMatchWith, lit]
    have h₃ : posMatchWith (lit "=") ('=' :: (body ++ (lit "%>" ++ rest))) := by
      simp [posMatchWith, lit]
    simp only [parsePercentTag, hdrop, List.headD_cons, List.tail_cons, if_neg h₁, if_neg h₂,
      if_pos h₃]
    rfl
  | eh =>
    have hdrop : (Kind.eh.marker ++ (body ++ (lit "%>" ++ rest))).drop 2 =
        '=' :: '$' :: (body ++ (lit "%>" ++ rest)) := rfl
    have h₁ : ¬ posMatchWith (lit "=$") ('$' :: (body ++ (lit "%>" ++ rest))) := by
      simp [posMatchWith, lit]
    have h₂ : posMatchWith (lit "$") ('$' :: (body ++ (lit "%>" ++ rest))) := by
      simp [posMatchWith, lit]
    simp only [parsePercentTag, hdrop, List.headD_cons, List.tail_cons, if_neg h₁, if_pos h₂]
    rfl
  | echo =>
    have hdrop : (Kind.echo.marker ++ (body ++ (lit "%>" ++ rest))).drop 2 =
        '=' :: '=' :: '$' :: (body ++ (lit "%>" ++ rest)) := rfl
    have h₁ : posMatchWith (lit "=$") ('=' :: '$' :: (body ++ (lit "%>" ++ rest))) := by
      simp [posMatchWith, lit]
    simp only [parsePercentTag, hdrop, List.headD_cons, List.tail_cons, if_pos h₁]
    rfl

/-- **What a plain tag gives**: its code for the parts handed on, the text going on behind the end,
and behind the white space that the tag drops. -/
lemma parsePercentTag_plain (trimMode : TrimMode) (rest : QString) (h : t.Plain) :
    parsePercentTag trimMode (t.erb ++ rest) =
      ((t.kind.emit t.handed, []), behind trimMode t.kind.marker t.last rest) := by
  rw [parsePercentTag_eq, parseEndPercentTag_eq t trimMode rest h]

/-- A block comment of C++, which ends where it should, whatever is behind it. -/
def OneBlockComment (d : Dialect) (src : QString) : Prop :=
  ∃ text, src = lit "  /*" ++ text ++ lit "*/\n" ∧
    ∀ code, behindComment (d.translate (text ++ (lit "*/\n" ++ code))) =
      some (d.translate ('\n' :: code))

lemma oneBlockComment_iff (d : Dialect) (text : QString) :
    OneBlockComment d (lit "  /*" ++ text ++ lit "*/\n") ↔ ¬ lit "*/" <:+: d.translate text := by
  have hstar : Inert '*' := by decide
  have htranslate : ∀ code, d.translate (text ++ (lit "*/\n" ++ code)) =
      d.translate text ++ '*' :: '/' :: d.translate ('\n' :: code) := by
    intro code
    have hcode : text ++ (lit "*/\n" ++ code) = text ++ '*' :: '/' :: '\n' :: code := rfl
    rw [hcode, translate_append d hstar, translate_cons d (by decide) (by decide)]
  constructor
  · rintro ⟨text', htext, hend⟩
    obtain rfl : text = text' := by simpa using htext
    exact behindComment_append.1 (htranslate [] ▸ hend [])
  · exact fun h => ⟨text, rfl, fun code => htranslate code ▸ behindComment_append.2 h⟩

lemma commentEnd_handed (d : Dialect) :
    lit "*/" <:+: d.translate t.handed.1 ↔ lit "*/" <:+: d.translate t.code := by
  rw [handed]
  cases hdefault : t.default with
  | some _ => rfl
  | none =>
    by_cases hsign : t.last = '-' ∨ t.last = '+'
    · simp only [if_pos hsign]
      have hlast : t.code.getLastD t.kind.last = t.last := by
        rw [ErbTag.last, body, bodyText, hdefault]
        simp
      cases hcode : t.code using List.reverseRecOn with
      | nil => simp
      | append_singleton s c =>
        rw [hcode, getLastD_append] at hlast
        obtain rfl : c = t.last := hlast
        rw [List.dropLast_concat]
        exact (commentEnd_concat d hsign s).symm
    · simp only [if_neg hsign]

end ErbTag

/-- A literal that is one backslash. -/
def backslash : Literal where
  mark := '"'
  elements := [.escape '\\']
  isQuote := by decide
  proper := by simp

def backslashTag : ErbTag where
  kind := .raw
  code := backslash.text
  default := none
  begins := (by decide : (bodyText backslash.text none).head? ≠ some '$')
  proper := ⟨⟨[.literal backslash], rfl, fun h => by
    simpa using h.length_le⟩, by simp⟩

end TreeFrog.ErbTagEnd
