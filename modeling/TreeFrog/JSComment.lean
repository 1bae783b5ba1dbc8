import TreeFrog.JSLoader

/-!
`isCommentPosition` on a script made of code, comments and string literals: for which scripts it
tells the positions inside of comments and literals from those of the code.

It does if it ends every comment and every literal where JavaScript does. It looks for the next
quote, escaped or not, for the end of a block comment from the star of its beginning on, and for
the next line feed only.
-/

namespace TreeFrog.JSComment

open Search JSLoader
open ErbParser (QString lit)

/-! ### Scripts -/

inductive Quote where
  | double
  | single
  deriving DecidableEq

def Quote.char : Quote → Char
  | .double => '"'
  | .single => '\''

/-- A piece of a string literal. -/
inductive Piece where
  | plain (c : Char)
  | escape (c : Char)
  deriving DecidableEq

def Piece.text : Piece → QString
  | .plain c => [c]
  | .escape c => ['\\', c]

/-- The end of a line, and of the last one. -/
inductive LineEnd where
  | lineFeed
  | carriageReturnLineFeed
  | carriageReturn
  | lineSeparator
  | paragraphSeparator
  | endOfText
  deriving DecidableEq

def LineEnd.text : LineEnd → QString
  | .lineFeed => ['\n']
  | .carriageReturnLineFeed => ['\r', '\n']
  | .carriageReturn => ['\r']
  | .lineSeparator => [Char.ofNat 0x2028]
  | .paragraphSeparator => [Char.ofNat 0x2029]
  | .endOfText => []

def lineTerminators : QString := ['\n', '\r', Char.ofNat 0x2028, Char.ofNat 0x2029]

/-- A script is a list of these. The end of its line belongs to a comment. -/
inductive Item where
  | code (c : Char)
  | lineComment (body : QString) (lineEnd : LineEnd)
  | blockComment (body : QString)
  | literal (quote : Quote) (body : List Piece)
  deriving DecidableEq

namespace Item

def text : Item → QString
  | code c => [c]
  | lineComment body e => '/' :: '/' :: (body ++ e.text)
  | blockComment body => '/' :: '*' :: (body ++ ['*', '/'])
  | literal q body => q.char :: (body.flatMap Piece.text ++ [q.char])

def isCode : Item → Bool
  | code _ => true
  | _ => false

/-- JavaScript reads the item so in front of the text `rest`. -/
def Lexes (rest : QString) : Item → Prop
  | code c => c ≠ '"' ∧ c ≠ '\'' ∧ (c = '/' → ∀ d ∈ rest.head?, d ≠ '/' ∧ d ≠ '*')
  | lineComment body e => (∀ c ∈ body, c ∉ lineTerminators) ∧
      (e = .carriageReturn → rest.head? ≠ some '\n') ∧ (e = .endOfText → rest = [])
  | blockComment body => search ['*', '/'] (body ++ ['*', '/']) = some body.length
  | literal q body => ∀ c, Piece.plain c ∈ body → c ≠ q.char ∧ c ≠ '\\'

/-- The item ends where `isCommentPosition` takes it to end. -/
def Ends (rest : QString) : Item → Prop
  | code _ => True
  | lineComment _ e => e = .lineFeed ∨ e = .carriageReturnLineFeed ∨ rest = []
  | blockComment body => body.head? ≠ some '/'
  | literal q body => Piece.escape q.char ∉ body

end Item

def text (items : List Item) : QString := items.flatMap Item.text

/-- Every item has the property in front of the text behind it. -/
def All (P : QString → Item → Prop) : List Item → Prop
  | [] => True
  | i :: items => P (text items) i ∧ All P items

structure Script where
  items : List Item
  lexes : All Item.Lexes items

/-- The position lies in a comment or literal, behind its first character. -/
def inside : List Item → ℕ → Bool
  | [], _ => false
  | i :: items, pos =>
    if pos < i.text.length then !i.isCode && 0 < pos else inside items (pos - i.text.length)

/-- `isCommentPosition` is right at every position. -/
def Detects (items : List Item) : Prop :=
  ∀ pos < (text items).length, isCommentPosition (text items) pos = inside items pos

/-! ### The loop on what is left of the text -/

section Loop

variable {content p t : QString} {c : Char} {idx pos j k turns turns' : ℕ}

lemma behind_append (needle : QString) :
    behind needle (p ++ t) (p.length + j) = (behind needle t j).map (p.length + ·) := by
  rw [behind, behind, List.drop_length_add_append, Option.map_map]
  congr 1
  funext i
  simp only [Function.comp_apply]
  omega

lemma commentStep_append (c : Char) :
    commentStep (p ++ t) (p.length + j) c = (commentStep t j c).map (p.length + ·) := by
  have h := fun needle => behind_append (p := p) (t := t) (j := j + 1) needle
  simp only [commentStep, Nat.add_assoc, h, List.drop_length_add_append]
  split_ifs <;> rfl

lemma lt_of_behind {needle : QString} (h : behind needle content idx = some j) : idx ≤ j := by
  rw [behind, Option.map_eq_some_iff] at h
  obtain ⟨i, -, rfl⟩ := h
  omega

lemma lt_of_commentStep (h : commentStep content idx c = some j) : idx < j := by
  have hb := fun needle (h : behind needle content (idx + 1) = some j) =>
    Nat.lt_of_succ_le (lt_of_behind h)
  unfold commentStep at h
  split_ifs at h
  all_goals first | exact hb _ h | (simp only [Option.some.injEq] at h; omega)

lemma commentLoop_append :
    commentLoop (p ++ t) (p.length + k) turns (p.length + j) = commentLoop t k turns j := by
  induction turns generalizing j with
  | zero => simp [commentLoop]
  | succ turns ih =>
    have hget : (p ++ t)[p.length + j]? = t[j]? := by
      rw [List.getElem?_append_right (Nat.le_add_right _ _), Nat.add_sub_cancel_left]
    rw [commentLoop, commentLoop, hget]
    by_cases hjk : j < k
    · rw [if_pos hjk, if_pos (by omega)]
      cases t[j]? with
      | none => rfl
      | some c =>
        simp only [commentStep_append]
        cases commentStep t j c with
        | none => rfl
        | some i => exact ih
    · rw [if_neg hjk, if_neg (by omega)]
      simp

lemma commentLoop_turns (h : pos ≤ idx + turns) (h' : pos ≤ idx + turns') :
    commentLoop content pos turns idx = commentLoop content pos turns' idx := by
  by_cases hpos : idx < pos
  · induction turns generalizing idx turns' with
    | zero => omega
    | succ turns ih =>
      obtain ⟨turns', rfl⟩ : ∃ n, turns' = n + 1 := ⟨turns' - 1, by omega⟩
      rw [commentLoop, commentLoop]
      cases content[idx]? with
      | none => rfl
      | some c =>
        simp only
        cases hs : commentStep content idx c with
        | none => rfl
        | some j =>
          have hj := lt_of_commentStep hs
          by_cases hjp : j < pos
          · simp only [ih (by omega) (by omega : pos ≤ j + turns') hjp]
          · rcases Nat.lt_or_ge pos j with hlt | hge
            · simp only [commentLoop_of_gt hlt]
            · obtain rfl : j = pos := by omega
              cases turns <;> cases turns' <;> simp [commentLoop]
  · cases turns <;> cases turns' <;> simp [commentLoop, hpos]

lemma isCommentPosition_zero : isCommentPosition content 0 = false := by
  rw [isCommentPosition]
  split_ifs <;> rfl

lemma isCommentPosition_step (hpos : 0 < pos) (hlen : pos < (c :: t).length)
    (hs : commentStep (c :: t) 0 c = some j) :
    isCommentPosition (c :: t) pos =
      if pos < j then true else isCommentPosition ((c :: t).drop j) (pos - j) := by
  obtain ⟨k, rfl⟩ : ∃ k, pos = k + 1 := ⟨pos - 1, by omega⟩
  have hj := lt_of_commentStep hs
  have hloop : isCommentPosition (c :: t) (k + 1) = commentLoop (c :: t) (k + 1) k j := by
    rw [isCommentPosition, if_neg (by omega), commentLoop, if_pos hpos, List.getElem?_cons_zero]
    simp only [hs]
  rw [hloop]
  split_ifs with hk
  · exact commentLoop_of_gt hk k
  · have happ := @commentLoop_append ((c :: t).take j) ((c :: t).drop j) 0 (k + 1 - j) k
    rw [List.take_append_drop, List.length_take, min_eq_left (by omega),
      Nat.add_sub_cancel' (by omega), Nat.add_zero j] at happ
    rw [isCommentPosition, if_neg (by rw [List.length_drop]; omega), happ]
    exact commentLoop_turns (by omega) (by omega)

lemma isCommentPosition_unended (hpos : 0 < pos) (hlen : pos < (c :: t).length)
    (hs : commentStep (c :: t) 0 c = none) : isCommentPosition (c :: t) pos = true := by
  obtain ⟨k, rfl⟩ : ∃ k, pos = k + 1 := ⟨pos - 1, by omega⟩
  rw [isCommentPosition, if_neg (by omega), commentLoop, if_pos hpos, List.getElem?_cons_zero]
  simp only [hs]

end Loop

/-! ### One item -/

section Turn

variable {c : Char} {body rest : QString} {q : Quote} {pieces : List Piece} {e : LineEnd}

lemma behind_one {needle t : QString} :
    behind needle (c :: t) 1 = (search needle t).map (1 + · + needle.length) := rfl

lemma commentStep_code (h : (Item.code c).Lexes rest) : commentStep (c :: rest) 0 c = some 1 := by
  obtain ⟨hd, hs, hslash⟩ := h
  have hlit : lit "/*" = ['/', '*'] ∧ lit "//" = ['/', '/'] := ⟨rfl, rfl⟩
  rw [commentStep, hlit.1, hlit.2, if_neg hd, if_neg hs, List.drop_zero]
  by_cases hc : c = '/'
  · have hne : ∀ d, d = '/' ∨ d = '*' → (c :: rest).take 2 ≠ ['/', d] := by
      intro d hd' htake
      cases rest with
      | nil => simp at htake
      | cons x rest =>
        have hx : x = d := by simpa [hc] using htake
        have hfree := hslash hc x rfl
        rcases hd' with rfl | rfl
        · exact hfree.1 hx
        · exact hfree.2 hx
    rw [if_pos hc, if_neg (hne _ (Or.inr rfl)), if_neg (hne _ (Or.inl rfl))]
  · rw [if_neg hc]

lemma commentStep_line (t : QString) :
    commentStep ('/' :: '/' :: t) 0 '/' = (search ['\n'] t).map (· + 3) := by
  have hlit : lit "/*" = ['/', '*'] ∧ lit "//" = ['/', '/'] := ⟨rfl, rfl⟩
  rw [commentStep, if_pos rfl, hlit.1, hlit.2, if_neg (by simp), if_pos (by simp), behind_one,
    search_cons_of_not (by simp), Option.map_map]
  congr 1
  funext i
  simp only [Function.comp_apply, List.length_singleton]
  omega

lemma commentStep_block (t : QString) :
    commentStep ('/' :: '*' :: t) 0 '/' = (search ['*', '/'] ('*' :: t)).map (· + 3) := by
  have hlit : lit "/*" = ['/', '*'] ∧ lit "*/" = ['*', '/'] := ⟨rfl, rfl⟩
  rw [commentStep, if_pos rfl, hlit.1, hlit.2, if_pos (by simp), behind_one]
  congr 1
  funext i
  simp only [List.length_cons, List.length_nil]
  omega

lemma commentStep_literal (q : Quote) (t : QString) :
    commentStep (q.char :: t) 0 q.char = (search [q.char] t).map (· + 2) := by
  have hmap : ∀ o : Option ℕ, o.map (1 + · + 1) = o.map (· + 2) := by
    intro o
    congr 1
    funext i
    omega
  cases q
  · rw [commentStep, if_neg (by decide), if_pos (show Quote.double.char = '"' from rfl), behind_one]
    exact hmap _
  · rw [commentStep, if_neg (by decide), if_neg (by decide),
      if_pos (show Quote.single.char = '\'' from rfl), behind_one]
    exact hmap _

end Turn

section Item

variable {i : Item} {items : List Item} {body rest : QString} {q : Quote} {pieces : List Piece}

lemma text_cons (i : Item) (items : List Item) : text (i :: items) = i.text ++ text items := rfl

lemma Item.text_pos (i : Item) : 0 < i.text.length := by
  cases i <;> simp [Item.text]

lemma quote_notMem (hl : (Item.literal q pieces).Lexes rest)
    (he : Piece.escape q.char ∉ pieces) : q.char ∉ pieces.flatMap Piece.text := by
  intro hq
  obtain ⟨piece, hp, hc⟩ := List.mem_flatMap.mp hq
  cases piece with
  | plain c =>
    obtain rfl : q.char = c := by simpa [Piece.text] using hc
    exact (hl _ hp).1 rfl
  | escape c =>
    rcases List.mem_cons.mp hc with h | h
    · cases q <;> cases h
    · obtain rfl : q.char = c := by simpa using h
      exact he hp

lemma lineFeed_notMem (h : ∀ c ∈ body, c ∉ lineTerminators) : '\n' ∉ body :=
  fun hm => h _ hm (by simp [lineTerminators])

/-- The turn of the loop at an item that ends where JavaScript ends it; a comment at the end of the
text may have no end of its own. -/
lemma commentStep_item (hl : i.Lexes rest) (he : i.Ends rest) :
    ∃ c t, i.text ++ rest = c :: t ∧
      (commentStep (c :: t) 0 c = some i.text.length ∨
        commentStep (c :: t) 0 c = none ∧ rest = [] ∧ i.isCode = false) := by
  cases i with
  | code c => exact ⟨c, rest, rfl, Or.inl (commentStep_code hl)⟩
  | lineComment body e =>
    refine ⟨'/', '/' :: (body ++ e.text ++ rest), by simp [Item.text], ?_⟩
    have hbody := lineFeed_notMem hl.1
    rw [commentStep_line]
    by_cases hlf : '\n' ∈ e.text
    · left
      have hend : ∃ l, e.text = l ++ ['\n'] ∧ '\n' ∉ l := by
        cases e with
        | lineFeed => exact ⟨[], rfl, by simp⟩
        | carriageReturnLineFeed => exact ⟨['\r'], rfl, by decide⟩
        | carriageReturn => exact absurd hlf (by decide)
        | lineSeparator => exact absurd hlf (by decide)
        | paragraphSeparator => exact absurd hlf (by decide)
        | endOfText => cases hlf
      obtain ⟨l, hl', hnot⟩ := hend
      have hs : search ['\n'] ((body ++ l) ++ '\n' :: rest) = some (body ++ l).length :=
        search_singleton (by simp [hbody, hnot])
      have happ : body ++ e.text ++ rest = (body ++ l) ++ '\n' :: rest := by simp [hl']
      rw [happ, hs]
      simp only [Option.map_some, Item.text, hl', List.length_cons, List.length_append,
        List.length_nil, Option.some.injEq]
      omega
    · right
      -- the comment ends the text without a line feed
      have hrest : rest = [] := by
        rcases he with rfl | rfl | h
        · exact absurd (by simp [LineEnd.text]) hlf
        · exact absurd (by simp [LineEnd.text]) hlf
        · exact h
      have hs : search ['\n'] (body ++ e.text ++ rest) = none := by
        rw [search_singleton_eq_none_iff, hrest]
        simp [hbody, hlf]
      exact ⟨by rw [hs]; rfl, hrest, rfl⟩
  | blockComment body =>
    refine ⟨'/', '*' :: (body ++ ['*', '/'] ++ rest), by simp [Item.text], Or.inl ?_⟩
    have hstar : ¬ ['*', '/'] <+: '*' :: (body ++ ['*', '/'] ++ rest) := by
      rw [List.cons_prefix_cons]
      rintro ⟨-, h⟩
      cases body with
      | nil => simp at h
      | cons c body => exact he (by simpa [eq_comm] using h)
    rw [commentStep_block, search_cons_of_not hstar, search_append hl]
    simp [Item.text]
  | literal q pieces =>
    have hq := quote_notMem hl he
    refine ⟨q.char, pieces.flatMap Piece.text ++ q.char :: rest, by simp [Item.text], Or.inl ?_⟩
    rw [commentStep_literal, search_singleton hq]
    simp [Item.text]

lemma isCommentPosition_item (hl : i.Lexes rest) (he : i.Ends rest) {pos : ℕ}
    (hpos : pos < (i.text ++ rest).length) :
    isCommentPosition (i.text ++ rest) pos =
      if pos < i.text.length then !i.isCode && 0 < pos
      else isCommentPosition rest (pos - i.text.length) := by
  obtain ⟨c, t, hct, hs⟩ := commentStep_item hl he
  rcases Nat.eq_zero_or_pos pos with rfl | h0
  · rw [isCommentPosition_zero, if_pos i.text_pos]
    simp
  · have hdrop : (c :: t).drop i.text.length = rest := by rw [← hct, List.drop_left]
    rcases hs with hs | ⟨hs, hrest, hcode⟩
    · rw [hct] at hpos ⊢
      rw [isCommentPosition_step h0 hpos hs, hdrop]
      split_ifs with hlt
      · have hcode : i.isCode = false := by
          cases i with
          | code c => exact absurd hlt (by simp [Item.text]; omega)
          | _ => rfl
        simp [hcode, h0]
      · rfl
    · have hlt : pos < i.text.length := by simpa [hrest] using hpos
      rw [hct] at hpos ⊢
      rw [isCommentPosition_unended h0 hpos hs, if_pos hlt]
      simp [hcode, h0]

lemma inside_zero (items : List Item) : inside items 0 = false := by
  cases items with
  | nil => rfl
  | cons i items =>
    rw [inside, if_pos i.text_pos]
    simp

/-- A literal with an escaped quote ends for the loop behind that quote. -/
lemma isCommentPosition_escaped (hl : (Item.literal q pieces).Lexes rest)
    (he : Piece.escape q.char ∈ pieces) :
    ∃ pos, 0 < pos ∧ pos < (Item.literal q pieces).text.length ∧
      isCommentPosition ((Item.literal q pieces).text ++ rest) pos = false := by
  obtain ⟨pre, post, rfl, hpre⟩ := List.eq_append_cons_of_mem he
  have hq : q.char ∉ pre.flatMap Piece.text ++ ['\\'] := by
    have hl' : (Item.literal q pre).Lexes rest := fun c hc => hl c (List.mem_append_left _ hc)
    rw [List.mem_append, not_or]
    exact ⟨quote_notMem hl' hpre, by cases q <;> decide⟩
  have htext : (Item.literal q (pre ++ .escape q.char :: post)).text ++ rest =
      q.char :: ((pre.flatMap Piece.text ++ ['\\']) ++
        q.char :: (post.flatMap Piece.text ++ q.char :: rest)) := by
    simp [Item.text, Piece.text]
  have hs := commentStep_literal q ((pre.flatMap Piece.text ++ ['\\']) ++
    q.char :: (post.flatMap Piece.text ++ q.char :: rest))
  rw [search_singleton hq, Option.map_some] at hs
  refine ⟨(pre.flatMap Piece.text ++ ['\\']).length + 2, by omega, ?_, ?_⟩
  · simp only [Item.text, Piece.text, List.flatMap_append, List.flatMap_cons, List.length_cons,
      List.length_append, List.length_nil]
    omega
  · rw [htext, isCommentPosition_step (by omega) ?_ hs, if_neg (Nat.lt_irrefl _), Nat.sub_self]
    · exact isCommentPosition_zero
    · simp only [List.length_cons, List.length_append, List.length_nil]
      omega

/-- A block comment that begins with a slash ends for the loop behind that slash. -/
lemma isCommentPosition_slash (body rest : QString) :
    isCommentPosition ((Item.blockComment ('/' :: body)).text ++ rest) 3 = false := by
  have hs := commentStep_block ('/' :: (body ++ ['*', '/'] ++ rest))
  have hzero : search ['*', '/'] ('*' :: '/' :: (body ++ ['*', '/'] ++ rest)) = some 0 :=
    search_eq_zero ⟨_, rfl⟩
  rw [hzero, Option.map_some] at hs
  have htext : (Item.blockComment ('/' :: body)).text ++ rest =
      '/' :: '*' :: '/' :: (body ++ ['*', '/'] ++ rest) := by
    simp [Item.text]
  rw [htext, isCommentPosition_step (by omega) (by simp) hs, if_neg (by omega)]
  exact isCommentPosition_zero

/-- A comment of one line goes on for the loop up to a line feed. -/
lemma isCommentPosition_line {e : LineEnd} (hl : (Item.lineComment body e).Lexes rest)
    (he : ¬ (Item.lineComment body e).Ends rest) :
    isCommentPosition ((Item.lineComment body e).text ++ rest)
      (Item.lineComment body e).text.length = true := by
  simp only [Item.Ends, not_or] at he
  obtain ⟨hlf, hcrlf, hrest⟩ := he
  -- the comment ends otherwise than with a line feed, so the loop is still in it
  have hnot : '\n' ∉ body ++ e.text := by
    rw [List.mem_append, not_or]
    refine ⟨lineFeed_notMem hl.1, ?_⟩
    cases e with
    | lineFeed => exact absurd rfl hlf
    | carriageReturnLineFeed => exact absurd rfl hcrlf
    | carriageReturn => decide
    | lineSeparator => decide
    | paragraphSeparator => decide
    | endOfText => decide
  have hs := commentStep_line (body ++ e.text ++ rest)
  rw [search_skip hnot, Option.map_map] at hs
  have htext : (Item.lineComment body e).text ++ rest =
      '/' :: '/' :: (body ++ e.text ++ rest) := by simp [Item.text]
  have hlen : (Item.lineComment body e).text.length = (body ++ e.text).length + 2 := by
    simp [Item.text]
  have hpos : 0 < rest.length := List.length_pos_iff.mpr hrest
  have hle : (body ++ e.text).length + 2 < ('/' :: '/' :: (body ++ e.text ++ rest)).length := by
    simp only [List.length_cons, List.length_append]
    omega
  rw [htext, hlen]
  cases hf : search ['\n'] rest with
  | none =>
    rw [hf] at hs
    exact isCommentPosition_unended (by omega) hle hs
  | some i =>
    rw [hf] at hs
    rw [isCommentPosition_step (by omega) hle hs, if_pos]
    simp only [Function.comp_apply]
    omega

lemma not_detects_of_not_ends (hl : i.Lexes (text items)) (he : ¬ i.Ends (text items)) :
    ¬ Detects (i :: items) := by
  intro h
  have hin : ∀ pos, 0 < pos → pos < i.text.length → i.isCode = false →
      isCommentPosition (text (i :: items)) pos = true := by
    intro pos h0 hpos hcode
    rw [h pos (by rw [text_cons, List.length_append]; omega), inside, if_pos hpos]
    simp [hcode, h0]
  rw [text_cons] at hin
  cases i with
  | code c => exact he trivial
  | lineComment body e =>
    have htrue := isCommentPosition_line hl he
    have hrest : 0 < (text items).length :=
      List.length_pos_iff.mpr fun h => he (Or.inr (Or.inr h))
    have hfalse := h (Item.lineComment body e).text.length
      (by rw [text_cons, List.length_append]; omega)
    rw [inside, if_neg (Nat.lt_irrefl _), Nat.sub_self, inside_zero, text_cons, htrue] at hfalse
    cases hfalse
  | blockComment body =>
    obtain ⟨body', rfl⟩ : ∃ b, body = '/' :: b := by
      cases body with
      | nil => exact absurd (by simp [Item.Ends]) he
      | cons c b => exact ⟨b, by simpa [Item.Ends] using he⟩
    have htrue := hin 3 (by omega) (by simp [Item.text]) rfl
    rw [isCommentPosition_slash] at htrue
    cases htrue
  | literal q pieces =>
    obtain ⟨pos, h0, hpos, hfalse⟩ := isCommentPosition_escaped hl (not_not.mp he)
    have htrue := hin pos h0 hpos rfl
    rw [hfalse] at htrue
    cases htrue

lemma detects_cons (hl : i.Lexes (text items)) :
    Detects (i :: items) ↔ i.Ends (text items) ∧ Detects items := by
  constructor
  · intro h
    have he : i.Ends (text items) := by
      by_contra hne
      exact not_detects_of_not_ends hl hne h
    refine ⟨he, fun pos hpos => ?_⟩
    have hlen : i.text.length + pos < (text (i :: items)).length := by
      rw [text_cons, List.length_append]
      omega
    have hat := h (i.text.length + pos) hlen
    rw [text_cons] at hlen hat
    rw [isCommentPosition_item hl he hlen, inside, if_neg (by omega), if_neg (by omega),
      Nat.add_sub_cancel_left] at hat
    exact hat
  · rintro ⟨he, h⟩ pos hpos
    rw [text_cons] at hpos ⊢
    rw [isCommentPosition_item hl he hpos, inside]
    split_ifs with hlt
    · rfl
    · refine h _ ?_
      rw [List.length_append] at hpos
      omega

end Item

/-- **Which positions are told right**: `isCommentPosition` is right on the whole of a script
exactly if no literal has an escaped quote of its own kind, no block comment begins with a slash,
and every comment of one line ends with a line feed or with the text. -/
theorem detects_iff (script : Script) : Detects script.items ↔ All Item.Ends script.items := by
  obtain ⟨items, hl⟩ := script
  induction items with
  | nil => exact ⟨fun _ => trivial, fun _ pos hpos => absurd hpos (Nat.not_lt_zero _)⟩
  | cons i items ih => exact (detects_cons hl.1).trans (and_congr_right fun _ => ih hl.2)

/-- The literal `"a\"b"`, and the position of the letter behind the quote in it. -/
theorem escaped_quote_undetected :
    let script : Script := ⟨[.literal .double [.plain 'a', .escape '"', .plain 'b']], by
      simp [All, Item.Lexes, Quote.char]⟩
    text script.items = "\"a\\\"b\"".toList ∧ inside script.items 4 = true ∧
      isCommentPosition (text script.items) 4 = false := by
  decide

end TreeFrog.JSComment
