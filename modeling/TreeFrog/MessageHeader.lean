import TreeFrog.Bytes

/-!
Internet message headers: the list of fields, how a field is looked up, and how the list is
read from text.
-/

namespace TreeFrog.MessageHeader

open TreeFrog.Bytes

/-- A field name and its value; a null value is `none`. -/
abbrev RawHeaderPair := QByteArray × Option QByteArray

structure TInternetMessageHeader where
  headerPairList : List RawHeaderPair := []
  deriving DecidableEq

namespace TInternetMessageHeader

/-- The value of the first field with this name, null when there is none. -/
def rawHeader (h : TInternetMessageHeader) (key : QByteArray) : Option QByteArray :=
  (h.headerPairList.find? fun p => qstricmp p.1 key).bind Prod.snd

def contentType (h : TInternetMessageHeader) : QByteArray :=
  (h.rawHeader (ascii "Content-Type")).getD []

def contentLength (h : TInternetMessageHeader) : ℕ :=
  toUInt ((h.rawHeader (ascii "Content-Length")).getD [])

lemma contentLength_lt (h : TInternetMessageHeader) : h.contentLength < 2 ^ 32 := toUInt_lt _

def toByteArray (h : TInternetMessageHeader) : QByteArray :=
  (h.headerPairList.flatMap fun p => p.1 ++ ascii ": " ++ p.2.getD [] ++ CRLF) ++ CRLF

def hasRawHeader (h : TInternetMessageHeader) (key : QByteArray) : Bool := (h.rawHeader key).isSome

/-- The loop of `setRawHeader`: the first field of the name gets the value, if it is not null,
and the others are removed. -/
def overrideLoop (key : QByteArray) : Option QByteArray → List RawHeaderPair → List RawHeaderPair
  | _, [] => []
  | val, p :: ps =>
    if qstricmp p.1 key then
      match val with
      | none => overrideLoop key none ps
      | some v => (p.1, some v) :: overrideLoop key none ps
    else p :: overrideLoop key val ps

def setRawHeader (h : TInternetMessageHeader) (key : QByteArray) (value : Option QByteArray) :
    TInternetMessageHeader :=
  if h.hasRawHeader key then ⟨overrideLoop key value h.headerPairList⟩
  else ⟨h.headerPairList ++ [(key, value)]⟩

def addRawHeader (h : TInternetMessageHeader) (key : QByteArray) (value : Option QByteArray) :
    TInternetMessageHeader :=
  if key.isEmpty || value.isNone then h else ⟨h.headerPairList ++ [(key, value)]⟩

def removeAllRawHeaders (h : TInternetMessageHeader) (key : QByteArray) : TInternetMessageHeader :=
  ⟨h.headerPairList.filter fun p => !qstricmp p.1 key⟩

def removeRawHeader (h : TInternetMessageHeader) (key : QByteArray) : TInternetMessageHeader :=
  ⟨h.headerPairList.eraseP fun p => qstricmp p.1 key⟩

end TInternetMessageHeader

/-! ### Reading the fields

The two loops of `parse`. Every turn of either moves forward inside the header block, so
`headerlen + 1` turns are enough for both. -/

/-- The value of one field from `j` on, its folded lines joined by a space, and the position
behind it. -/
def parseValue (header : QByteArray) (headerlen : ℕ) : ℕ → ℕ → QByteArray → QByteArray × ℕ
  | 0, j, value => (value, j)
  | fuel + 1, j, value =>
    let i := (indexOf header [LF] j).getD header.length
    let value := (if value = [] then value else value ++ [SP]) ++
      trimmed ((header.drop j).take (i - j))
    -- a line that begins with a space or a tab continues the value
    if i + 1 < headerlen ∧ (header[i + 1]? = some SP ∨ header[i + 1]? = some HT) then
      parseValue header headerlen fuel (i + 1) value
    else (value, i + 1)

/-- The fields from position `i` on. The colon is looked for in the whole text, not only in
the header block. -/
def parseLoop (header : QByteArray) (headerlen : ℕ) :
    ℕ → ℕ → List RawHeaderPair → List RawHeaderPair
  | 0, _, pairs => pairs
  | fuel + 1, i, pairs =>
    if i < headerlen then
      match indexOf header [COLON] i with
      | none => pairs
      | some j =>
        let field := trimmed ((header.drop i).take (j - i))
        let r := parseValue header headerlen (headerlen + 1) (j + 1) []
        parseLoop header headerlen fuel r.2 (pairs ++ [(field, some r.1)])
    else pairs

def TInternetMessageHeader.parse (h : TInternetMessageHeader) (header : QByteArray) :
    TInternetMessageHeader :=
  let headerlen := (indexOf header CRLFCRLF 0).getD header.length
  ⟨parseLoop header headerlen (headerlen + 1) 0 h.headerPairList⟩

lemma parseLoop_done {header : QByteArray} {headerlen i : ℕ} (hi : headerlen ≤ i) (fuel : ℕ)
    (ps : List RawHeaderPair) : parseLoop header headerlen fuel i ps = ps := by
  cases fuel with
  | zero => rfl
  | succ fuel => rw [parseLoop, if_neg (by omega)]

lemma prefix_le_parseLoop (header : QByteArray) (headerlen fuel i : ℕ) (ps : List RawHeaderPair) :
    ps <+: parseLoop header headerlen fuel i ps := by
  induction fuel generalizing i ps with
  | zero => exact List.prefix_rfl
  | succ fuel ih =>
    rw [parseLoop]
    split_ifs
    · cases indexOf header [COLON] i with
      | none => exact List.prefix_rfl
      | some j => exact (List.prefix_append _ _).trans (ih _ _)
    · exact List.prefix_rfl

lemma parseValue_line {a value rest : QByteArray} {headerlen fuel : ℕ} (hv : LF ∉ value)
    (hend : headerlen ≤ a.length + value.length + 1 ∨
      (rest.head? ≠ some SP ∧ rest.head? ≠ some HT)) :
    parseValue (a ++ (value ++ LF :: rest)) headerlen (fuel + 1) a.length [] =
      (trimmed value, a.length + value.length + 1) := by
  have hi : indexOf (a ++ (value ++ LF :: rest)) [LF] a.length = some (a.length + value.length) :=
    indexOf_singleton hv
  have hnext : (a ++ (value ++ LF :: rest))[a.length + value.length + 1]? = rest.head? := by
    rw [List.getElem?_append_right (by omega),
      show a.length + value.length + 1 - a.length = value.length + 1 by omega,
      List.getElem?_append_right (by omega)]
    simp [List.head?_eq_getElem?]
  rw [parseValue, hi]
  simp only [Option.getD_some, hnext]
  rw [if_neg (by rcases hend with h | h <;> grind)]
  simp

/-- **One field on one line**: its name is the text before the colon, its value the text
behind it, both trimmed. -/
lemma parseLoop_field {a key value rest : QByteArray} {headerlen fuel : ℕ}
    (hk : COLON ∉ key) (hv : LF ∉ value) (ha : a.length < headerlen)
    (hend : headerlen ≤ a.length + key.length + value.length + 2 ∨
      (rest.head? ≠ some SP ∧ rest.head? ≠ some HT)) (ps : List RawHeaderPair) :
    parseLoop (a ++ (key ++ COLON :: (value ++ LF :: rest))) headerlen (fuel + 1) a.length ps =
      parseLoop (a ++ (key ++ COLON :: (value ++ LF :: rest))) headerlen fuel
        (a.length + key.length + value.length + 2)
        (ps ++ [(trimmed key, some (trimmed value))]) := by
  have hj : indexOf (a ++ (key ++ COLON :: (value ++ LF :: rest))) [COLON] a.length =
      some (a.length + key.length) := indexOf_singleton hk
  have hval : parseValue (a ++ key ++ [COLON] ++ (value ++ LF :: rest)) headerlen (headerlen + 1)
      (a ++ key ++ [COLON]).length [] =
        (trimmed value, (a ++ key ++ [COLON]).length + value.length + 1) := by
    refine parseValue_line hv ?_
    rcases hend with h | h
    · left; simp only [List.length_append, List.length_singleton]; omega
    · exact Or.inr h
  have hsplit : a ++ key ++ [COLON] ++ (value ++ LF :: rest) =
      a ++ (key ++ COLON :: (value ++ LF :: rest)) := by simp
  rw [hsplit] at hval
  rw [parseLoop, if_pos ha, hj]
  simp only [List.length_append, List.length_singleton] at hval
  simp only [hval]
  congr 1
  · omega
  · simp

end TreeFrog.MessageHeader
