import TreeFrog.Bytes

/-!
`TMimeHeader`: the header fields of a part of a multipart body, and the parameters of a field.

A text in quotes is read back; this is what the name of a form field depends on.
-/

namespace TreeFrog.MimeHeader

open Bytes

def SEMICOLON : UInt8 := 59
def EQUAL : UInt8 := 61
def QUOTE : UInt8 := 34
def BACKSLASH : UInt8 := 92

/-! ### Parameters -/

def isBlank (c : UInt8) : Bool := c = SP || c = HT || c = CR || c = LF

def skipWhitespace (text : QByteArray) : QByteArray := text.dropWhile isBlank

/-- A text behind a quote, up to the quote that ends it; none if it ends within an escape. -/
def quotedText : QByteArray → Option (QByteArray × QByteArray)
  | [] => some ([], [])
  | c :: text =>
    if c = QUOTE then some ([], c :: text)
    else if c = BACKSLASH then
      match text with
      | [] => none
      | c :: text => (quotedText text).map fun r => (c :: r.1, r.2)
    else (quotedText text).map fun r => (c :: r.1, r.2)

/-- A map; a key that is not in it has an empty value. -/
abbrev Parameters := QByteArray → QByteArray

namespace Parameters

def insert (result : Parameters) (key value : QByteArray) : Parameters :=
  fun k => if k = key then value else result k

lemma insert_self (result : Parameters) (key value : QByteArray) :
    insert result key value key = value := if_pos rfl

lemma insert_of_ne {key k : QByteArray} (h : k ≠ key) (result : Parameters) (value : QByteArray) :
    insert result key value k = result k := if_neg h

end Parameters

open Parameters (insert)

/-- The loop of `parseHeaderParameter`, over the text from its position on. Every turn takes at
least one byte. -/
def parameters : ℕ → QByteArray → Parameters → Parameters
  | 0, _, result => result
  | fuel + 1, header, result =>
    let text := skipWhitespace header
    if text = [] then result
    else
      let semicol := text.idxOf SEMICOLON
      let equal := text.idxOf EQUAL
      -- `indexOf` finds no `=`, or a `;` in front of it
      if equal = text.length ∨ semicol < equal then
        let key := trimmed (text.take semicol)
        parameters fuel (text.drop (semicol + 1))
          (if key = [] then result else insert result key [])
      else
        let key := trimmed (text.take equal)
        match skipWhitespace (text.drop (equal + 1)) with
        | [] => result
        | c :: text =>
          if c = QUOTE then
            match quotedText text with
            | none => result
            | some (value, text) => parameters fuel text (insert result key value)
          else
            let isValue := fun c => !isBlank c && c ≠ SEMICOLON
            parameters fuel ((c :: text).dropWhile isValue)
              (insert result key ((c :: text).takeWhile isValue))

def parseHeaderParameter (header : QByteArray) : Parameters :=
  parameters (header.length + 1) header fun _ => []

/-! ### The header -/

structure TMimeHeader where
  headers : List (QByteArray × QByteArray)

namespace TMimeHeader

variable (h : TMimeHeader)

def isEmpty : Bool := h.headers.isEmpty

def header (headerName : QByteArray) : QByteArray :=
  ((h.headers.find? fun p => toLower p.1 = toLower headerName).map Prod.snd).getD []

def setHeader (headerName value : QByteArray) : TMimeHeader :=
  ⟨h.headers ++ [(headerName, value)]⟩

def contentDispositionParameter (name : QByteArray) : QByteArray :=
  parseHeaderParameter (h.header (ascii "content-disposition")) name

def dataName : QByteArray := h.contentDispositionParameter (ascii "name")

/-- `QString::fromUtf8` is given; it is handed a C string. -/
def originalFileName (fromUtf8 : QByteArray → String) : String :=
  fromUtf8 (constData (h.contentDispositionParameter (ascii "filename")))

lemma header_cons (key value name : QByteArray) (headers : List (QByteArray × QByteArray)) :
    header ⟨(key, value) :: headers⟩ name =
      if toLower key = toLower name then value else header ⟨headers⟩ name := by
  unfold header
  dsimp only
  rw [List.find?_cons]
  by_cases h : toLower key = toLower name
  · rw [if_pos h, decide_eq_true h]
    rfl
  · rw [if_neg h, decide_eq_false h]

end TMimeHeader

/-! ### Text in quotes -/

/-- The text of a quoted string. -/
def escape (text : QByteArray) : QByteArray :=
  text.flatMap fun c => if c = QUOTE ∨ c = BACKSLASH then [BACKSLASH, c] else [c]

lemma quotedText_quote (text : QByteArray) :
    quotedText (QUOTE :: text) = some ([], QUOTE :: text) := by
  rw [quotedText.eq_def]
  rfl

lemma quotedText_escaped (c : UInt8) (text : QByteArray) :
    quotedText (BACKSLASH :: c :: text) = (quotedText text).map fun r => (c :: r.1, r.2) := by
  rw [quotedText.eq_def]
  rfl

lemma quotedText_plain {c : UInt8} (hquote : c ≠ QUOTE) (hback : c ≠ BACKSLASH)
    (text : QByteArray) :
    quotedText (c :: text) = (quotedText text).map fun r => (c :: r.1, r.2) := by
  rw [quotedText.eq_def]
  dsimp only
  rw [if_neg hquote, if_neg hback]

/-- **A text in quotes** is read back. -/
theorem quotedText_escape (text rest : QByteArray) :
    quotedText (escape text ++ QUOTE :: rest) = some (text, QUOTE :: rest) := by
  induction text with
  | nil => exact quotedText_quote rest
  | cons c text ih =>
    rw [escape, List.flatMap_cons, ← escape, List.append_assoc]
    by_cases hc : c = QUOTE ∨ c = BACKSLASH
    · rw [if_pos hc, List.cons_append, List.singleton_append, quotedText_escaped, ih]
      rfl
    · obtain ⟨hquote, hback⟩ := not_or.mp hc
      rw [if_neg hc, List.singleton_append, quotedText_plain hquote hback, ih]
      rfl

lemma length_quotedText {text value rest : QByteArray} (h : quotedText text = some (value, rest)) :
    rest.length ≤ text.length := by
  induction text using quotedText.induct generalizing value with
  | case1 =>
    cases h
    exact Nat.le_refl _
  | case2 text =>
    rw [quotedText_quote] at h
    cases h
    exact Nat.le_refl _
  | case3 => cases h
  | case4 c text _ ih =>
    rw [quotedText_escaped] at h
    obtain ⟨r, hr, hrest⟩ := Option.map_eq_some_iff.mp h
    cases hrest
    exact (ih hr).trans (Nat.le_add_right _ 2)
  | case5 text c hquote hback ih =>
    rw [quotedText_plain hquote hback] at h
    obtain ⟨r, hr, hrest⟩ := Option.map_eq_some_iff.mp h
    cases hrest
    exact (ih hr).trans (Nat.le_succ _)

/-! ### Turns of the loop -/

lemma skipWhitespace_cons {c : UInt8} (hc : isBlank c = false) (text : QByteArray) :
    skipWhitespace (c :: text) = c :: text := by
  rw [skipWhitespace, List.dropWhile_cons, hc]
  rfl

/-- One turn of the loop of `parseHeaderParameter`: it goes on with the rest of the text, or
returns. -/
def turn (header : QByteArray) (result : Parameters) : (QByteArray × Parameters) ⊕ Parameters :=
  let text := skipWhitespace header
  if text = [] then .inr result
  else
    let semicol := text.idxOf SEMICOLON
    let equal := text.idxOf EQUAL
    if equal = text.length ∨ semicol < equal then
      let key := trimmed (text.take semicol)
      .inl (text.drop (semicol + 1), if key = [] then result else result.insert key [])
    else
      let key := trimmed (text.take equal)
      match skipWhitespace (text.drop (equal + 1)) with
      | [] => .inr result
      | c :: text =>
        if c = QUOTE then
          match quotedText text with
          | none => .inr result
          | some (value, text) => .inl (text, result.insert key value)
        else
          let isValue := fun c => !isBlank c && c ≠ SEMICOLON
          .inl ((c :: text).dropWhile isValue,
            result.insert key ((c :: text).takeWhile isValue))

lemma parameters_succ (fuel : ℕ) (header : QByteArray) (result : Parameters) :
    parameters (fuel + 1) header result =
      Sum.elim (fun s => parameters fuel s.1 s.2) id (turn header result) := by
  rw [parameters, turn]
  dsimp only
  split_ifs with hnil hword
  · rfl
  · rfl
  · rfl
  · cases skipWhitespace
        ((skipWhitespace header).drop ((skipWhitespace header).idxOf EQUAL + 1)) with
    | nil => rfl
    | cons c text =>
      dsimp only
      split_ifs with hquote
      · cases quotedText text <;> rfl
      · rfl

lemma length_turn {header header' : QByteArray} {result result' : Parameters}
    (h : turn header result = .inl (header', result')) : header'.length < header.length := by
  have hskip : (skipWhitespace header).length ≤ header.length :=
    (List.dropWhile_suffix isBlank).length_le
  have hshort : ∀ (i : ℕ) (text : QByteArray), skipWhitespace header ≠ [] →
      text.length ≤ ((skipWhitespace header).drop (i + 1)).length →
      text.length < header.length := by
    intro i text hne hle
    have hpos := List.length_pos_iff.mpr hne
    rw [List.length_drop] at hle
    omega
  rw [turn] at h
  dsimp only at h
  split_ifs at h with hnil hword
  · obtain ⟨rfl, -⟩ := Prod.mk.inj (Sum.inl.inj h)
    exact hshort _ _ hnil le_rfl
  · obtain ⟨rfl, -⟩ := Prod.mk.inj (Sum.inl.inj h)
    exact hshort _ _ hnil le_rfl
  · have hle := (List.dropWhile_suffix (l := (skipWhitespace header).drop
      ((skipWhitespace header).idxOf EQUAL + 1)) isBlank).length_le
    rw [← skipWhitespace] at hle
    cases hrest : skipWhitespace
        ((skipWhitespace header).drop ((skipWhitespace header).idxOf EQUAL + 1)) with
    | nil => simp [hrest] at h
    | cons c text =>
      rw [hrest] at h hle
      dsimp only at h
      split_ifs at h with hquote
      · cases hvalue : quotedText text with
        | none => simp [hvalue] at h
        | some r =>
          rw [hvalue] at h
          obtain ⟨rfl, -⟩ := Prod.mk.inj (Sum.inl.inj h)
          exact hshort _ _ hnil ((length_quotedText hvalue).trans ((Nat.le_succ _).trans hle))
      · obtain ⟨rfl, -⟩ := Prod.mk.inj (Sum.inl.inj h)
        exact hshort _ _ hnil ((List.dropWhile_suffix _).length_le.trans hle)

/-- **The loop ends**: more turns than there are bytes change nothing. -/
theorem parameters_enough {n m : ℕ} {header : QByteArray} (hn : header.length < n)
    (hm : header.length < m) (result : Parameters) :
    parameters n header result = parameters m header result := by
  induction n generalizing m header result with
  | zero => omega
  | succ n ih =>
    obtain _ | m := m
    · omega
    rw [parameters_succ, parameters_succ]
    cases hturn : turn header result with
    | inr r => rfl
    | inl s =>
      have hlt : s.1.length < header.length := length_turn hturn
      exact ih (by omega) (by omega) s.2

/-- A word that is no parameter. -/
structure IsWord (key : QByteArray) : Prop where
  semicolon : SEMICOLON ∉ key
  equal : EQUAL ∉ key
  trimmed : trimmed key = key
  ne_nil : key ≠ []
  head : skipWhitespace key = key

section

variable {key : QByteArray} {result : Parameters} {fuel : ℕ}

lemma IsWord.skip (h : IsWord key) (text : QByteArray) :
    skipWhitespace (key ++ text) = key ++ text := by
  obtain ⟨c, key, rfl⟩ := List.exists_cons_of_ne_nil h.ne_nil
  have hhead := h.head
  rw [List.cons_append]
  cases hc : isBlank c with
  | false => exact skipWhitespace_cons hc _
  | true =>
    rw [skipWhitespace, List.dropWhile_cons, hc, if_pos rfl] at hhead
    have hlength := (List.dropWhile_suffix isBlank (l := key)).length_le
    rw [hhead, List.length_cons] at hlength
    omega

lemma parameters_word (h : IsWord key) (text : QByteArray) :
    parameters (fuel + 1) (key ++ SEMICOLON :: text) result =
      parameters fuel text (insert result key []) := by
  have hsemicol : (key ++ SEMICOLON :: text).idxOf SEMICOLON = key.length := by
    rw [List.idxOf_append_of_notMem h.semicolon, List.idxOf_cons_self, Nat.add_zero]
  have hequal : key.length < (key ++ SEMICOLON :: text).idxOf EQUAL := by
    rw [List.idxOf_append_of_notMem h.equal, List.idxOf_cons_ne _ (by decide)]
    omega
  have hnil : key ++ SEMICOLON :: text ≠ [] := by simp
  rw [parameters]
  dsimp only
  rw [h.skip, if_neg hnil, hsemicol, if_pos (.inr hequal), List.take_left, h.trimmed,
    if_neg h.ne_nil, ← List.drop_drop, List.drop_left]
  rfl

lemma parameters_last (h : IsWord key) :
    parameters (fuel + 1) key result = insert result key [] := by
  have hskip : skipWhitespace key = key := h.head
  have hempty : parameters fuel [] (insert result key []) = insert result key [] := by
    cases fuel <;> rfl
  rw [parameters]
  dsimp only
  rw [hskip, if_neg h.ne_nil, List.idxOf_eq_length h.semicolon, List.idxOf_eq_length h.equal,
    if_pos (.inl rfl), List.take_length, h.trimmed, if_neg h.ne_nil,
    List.drop_of_length_le (by omega)]
  exact hempty

lemma parameters_quoted (h : IsWord key) (value text : QByteArray) :
    parameters (fuel + 1) (SP :: key ++ EQUAL :: QUOTE :: (escape value ++ QUOTE :: text)) result =
      parameters fuel (QUOTE :: text) (insert result key value) := by
  have hskip : skipWhitespace (SP :: key ++ EQUAL :: QUOTE :: (escape value ++ QUOTE :: text)) =
      key ++ EQUAL :: QUOTE :: (escape value ++ QUOTE :: text) := h.skip _
  have hequal : (key ++ EQUAL :: QUOTE :: (escape value ++ QUOTE :: text)).idxOf EQUAL =
      key.length := by
    rw [List.idxOf_append_of_notMem h.equal, List.idxOf_cons_self, Nat.add_zero]
  have hsemicol : key.length <
      (key ++ EQUAL :: QUOTE :: (escape value ++ QUOTE :: text)).idxOf SEMICOLON := by
    rw [List.idxOf_append_of_notMem h.semicolon, List.idxOf_cons_ne _ (by decide)]
    omega
  have hnil : key ++ EQUAL :: QUOTE :: (escape value ++ QUOTE :: text) ≠ [] := by simp
  have hfirst : ¬ (key.length = (key ++ EQUAL :: QUOTE :: (escape value ++ QUOTE :: text)).length ∨
      (key ++ EQUAL :: QUOTE :: (escape value ++ QUOTE :: text)).idxOf SEMICOLON < key.length) := by
    simp only [List.length_append, List.length_cons]
    omega
  have hrest : skipWhitespace ((key ++ EQUAL :: QUOTE :: (escape value ++ QUOTE :: text)).drop
      (key.length + 1)) = QUOTE :: (escape value ++ QUOTE :: text) := by
    rw [← List.drop_drop, List.drop_left]
    exact skipWhitespace_cons (by decide) _
  rw [parameters]
  dsimp only
  rw [hskip, if_neg hnil, hequal, if_neg hfirst, List.take_left, h.trimmed, hrest]
  dsimp only
  rw [if_pos rfl, quotedText_escape]

end

end TreeFrog.MimeHeader
