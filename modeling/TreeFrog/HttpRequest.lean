import TreeFrog.StaticFile
import TreeFrog.UrlRoute
import TreeFrog.Utf8

/-!
`THttpRequest::parseBody`: the items of the query and of a form. The query is made a text before
it is split, and cut at a second question mark; the form is split as bytes.
-/

namespace TreeFrog.HttpRequest

open Bytes LexicalPath StaticFile
open UrlRoute (HttpMethod)

@[match_pattern] abbrev PERCENT : UInt8 := 37
abbrev AMPERSAND : UInt8 := 38
abbrev PLUS : UInt8 := 43
abbrev EQUALS : UInt8 := 61
abbrev QUESTION : UInt8 := 63

/-- `QString::toLatin1`; what Latin-1 does not have is a question mark. -/
def toLatin1 (t : Text) : QByteArray := t.map fun u => if u < 256 then u.toUInt8 else QUESTION

/-- `QString(const QByteArray &)`, which ends at a zero byte. -/
def toQString (fromUtf8 : QByteArray → Text) (b : QByteArray) : Text := fromUtf8 (constData b)

/-- The items of a query, or of a form. -/
abbrev Items := List (Text × Text)

/-- The items of a form. -/
def formItems (fromUtf8 : QByteArray → Text) (body : QByteArray) : Items :=
  if body.isEmpty then []
  else (body.splitOn AMPERSAND).filterMap fun frm =>
    let nameval := frm.splitOn EQUALS
    if (nameval.getD 0 []).isEmpty then none
    else some (fromUrlEncoding fromUtf8 (nameval.getD 0 []),
      fromUrlEncoding fromUtf8 (nameval.getD 1 []))

/-- The items of the query of a target. -/
def queryItems (fromUtf8 : QByteArray → Text) (path : QByteArray) : Items :=
  let getdata := toQString fromUtf8 ((path.splitOn QUESTION).getD 1 [])
  if getdata.isEmpty then []
  else ((getdata.splitOn AMPERSAND.toUInt16).filter fun p => !p.isEmpty).filterMap fun p =>
    let s := p.splitOn EQUALS.toUInt16
    if (s.getD 0 []).isEmpty then none
    else some (fromUrlEncoding fromUtf8 (toLatin1 (s.getD 0 [])),
      fromUrlEncoding fromUtf8 (toLatin1 (s.getD 1 [])))

structure Parsed where
  formItems : Items := []
  queryItems : Items := []

/-- Whether the content type begins with this name. -/
def startsWith (contentType : QByteArray) (name : String) : Bool :=
  (ascii name).isPrefixOf (toLower (trimmed contentType))

/-- `parseBody`; `multipart` gives the parameters of a multipart body. JSON has no items. -/
def parseBody (fromUtf8 : QByteArray → Text) (multipart : QByteArray → Items)
    (method : HttpMethod) (contentType path body : QByteArray) : Parsed :=
  let form :=
    if startsWith contentType "multipart/form-data" then multipart body
    else if startsWith contentType "application/json" then []
    else if startsWith contentType "application/x-www-form-urlencoded" then
      formItems fromUtf8 body
    else []
  match method with
  | .post | .put | .patch => ⟨form, queryItems fromUtf8 path⟩
  | .get => ⟨[], queryItems fromUtf8 path⟩
  | _ => {}

/-- All items of a request. -/
def Parsed.items (p : Parsed) : Items := p.queryItems ++ p.formItems

/-! ### A query and a form of the same bytes -/

lemma splitOn_map {α β : Type} [DecidableEq α] [DecidableEq β] {f : α → β}
    (hf : Function.Injective f) (a : α) (xs : List α) :
    (xs.map f).splitOn (f a) = (xs.splitOn a).map (List.map f) := by
  induction xs with
  | nil => rfl
  | cons x xs ih =>
    rw [List.map_cons, List.splitOn_cons_eq_if_modifyHead, List.splitOn_cons_eq_if_modifyHead, ih]
    by_cases hx : x = a
    · simp [hx]
    · have hfx : f x ≠ f a := fun h => hx (hf h)
      cases hsplit : xs.splitOn a with
      | nil => exact absurd hsplit (List.splitOn_ne_nil a xs)
      | cons y ys => simp [hx, hfx]

lemma toUInt16_injective : Function.Injective UInt8.toUInt16 := fun _ _ h =>
  UInt8.toUInt16_inj.mp h

@[simp] lemma toLatin1_fromAscii (b : QByteArray) : toLatin1 (fromAscii b) = b := by
  rw [toLatin1, fromAscii, List.map_map]
  refine (List.map_congr_left fun c _ => ?_).trans (List.map_id b)
  have hlt : c.toUInt16 < 256 := by
    rw [UInt16.lt_iff_toNat_lt, UInt8.toNat_toUInt16]
    exact c.toNat_lt
  simp [hlt]

lemma getD_map_fromAscii (xs : List QByteArray) (i : ℕ) :
    (xs.map fromAscii).getD i [] = fromAscii (xs.getD i []) := by
  rw [List.getD_eq_getElem?_getD, List.getD_eq_getElem?_getD, List.getElem?_map]
  cases xs[i]? <;> rfl

/-- Bytes that are the same text in every encoding, without a question mark. -/
def Plain (q : QByteArray) : Prop := ∀ c ∈ q, c ≠ 0 ∧ c ≠ QUESTION ∧ c < 128

lemma plain_of_all {q : QByteArray}
    (h : q.all (fun c => c ≠ 0 && c ≠ QUESTION && c < 128) = true) : Plain q :=
  fun c hc => by simpa [and_assoc] using List.all_eq_true.mp h c hc

/-- `fromUtf8` reads ASCII as it stands. -/
def ReadsAscii (fromUtf8 : QByteArray → Text) : Prop :=
  ∀ b : QByteArray, (∀ c ∈ b, c < 128) → fromUtf8 b = fromAscii b

lemma getdata_of_plain {fromUtf8 : QByteArray → Text} (hascii : ReadsAscii fromUtf8)
    {path q : QByteArray} (hpath : QUESTION ∉ path) (hq : Plain q) :
    toQString fromUtf8 (((path ++ QUESTION :: q).splitOn QUESTION).getD 1 []) = fromAscii q := by
  have hone : QUESTION ∉ q := fun h => (hq _ h).2.1 rfl
  have hzero : constData q = q :=
    List.takeWhile_eq_self_iff.mpr fun c hc => by simpa using (hq c hc).1
  rw [List.splitOn_append_cons_self_of_not_mem hpath, List.splitOn_eq_singleton hone]
  change toQString fromUtf8 q = fromAscii q
  rw [toQString, hzero, hascii q fun c hc => (hq c hc).2.2]

/-- **The items of a query** of plain bytes are those of the form of these bytes. -/
lemma queryItems_eq_formItems {fromUtf8 : QByteArray → Text} (hascii : ReadsAscii fromUtf8)
    {path q : QByteArray} (hpath : QUESTION ∉ path) (hq : Plain q) :
    queryItems fromUtf8 (path ++ QUESTION :: q) = formItems fromUtf8 q := by
  have hempty : (fromAscii q).isEmpty = q.isEmpty := by cases q <;> rfl
  have hsplit : ∀ (a : UInt8) (b : QByteArray),
      (fromAscii b).splitOn a.toUInt16 = (b.splitOn a).map fromAscii :=
    fun a b => splitOn_map toUInt16_injective a b
  rw [queryItems, getdata_of_plain hascii hpath hq]
  simp only [hempty, hsplit]
  rw [formItems]
  split
  · rfl
  · rw [List.filter_map, List.filterMap_map, List.filterMap_filter]
    refine List.filterMap_congr fun seg _ => ?_
    have hfield : ∀ i, ((seg.splitOn EQUALS).map fromAscii).getD i [] =
        fromAscii ((seg.splitOn EQUALS).getD i []) := getD_map_fromAscii _
    simp only [Function.comp_apply, hsplit, hfield, toLatin1_fromAscii]
    cases seg with
    | nil => rfl
    | cons c seg =>
      cases hname : (List.splitOn EQUALS (c :: seg)).getD 0 [] with
      | nil => rfl
      | cons d name => rfl

/-- The content type of a form. -/
def formType : QByteArray := ascii "application/x-www-form-urlencoded"

/-- The methods of requests with a form. -/
def takesForm (method : HttpMethod) : Bool :=
  method = .post || method = .put || method = .patch

lemma parseBody_form (fromUtf8 : QByteArray → Text) (multipart : QByteArray → Items)
    {method : HttpMethod} (hm : takesForm method = true) (path body : QByteArray) :
    parseBody fromUtf8 multipart method formType path body =
      ⟨formItems fromUtf8 body, queryItems fromUtf8 path⟩ := by
  have h1 : startsWith formType "multipart/form-data" = false := by decide
  have h2 : startsWith formType "application/json" = false := by decide
  have h3 : startsWith formType "application/x-www-form-urlencoded" = true := by decide
  cases method with
  | post | put | patch => simp only [parseBody, h1, h2, h3, Bool.false_eq_true, if_false, if_true]
  | _ => cases hm

lemma queryItems_of_not_mem {fromUtf8 : QByteArray → Text} (hempty : fromUtf8 [] = [])
    {path : QByteArray} (hpath : QUESTION ∉ path) : queryItems fromUtf8 path = [] := by
  have hnone : (path.splitOn QUESTION).getD 1 [] = [] := by
    rw [List.splitOn_eq_singleton hpath]
    rfl
  rw [queryItems, hnone]
  simp [toQString, constData, hempty]

/-- **Query and form agree** on plain bytes. -/
theorem items_get_eq_items_post {fromUtf8 : QByteArray → Text} (hascii : ReadsAscii fromUtf8)
    {path q : QByteArray} (hpath : QUESTION ∉ path) (hq : Plain q)
    (multipart : QByteArray → Items) (contentType body : QByteArray) :
    (parseBody fromUtf8 multipart .get contentType (path ++ QUESTION :: q) body).items =
      (parseBody fromUtf8 multipart .post formType path q).items := by
  have hempty : fromUtf8 [] = [] := hascii [] (by simp)
  rw [parseBody_form _ _ rfl, parseBody]
  simp only [Parsed.items, queryItems_eq_formItems hascii hpath hq,
    queryItems_of_not_mem hempty hpath, List.append_nil, List.nil_append]

theorem items_get_eq_items_post_plain :
    (parseBody fromAscii (fun _ => []) .get [] (ascii "/search?a=1&b=%2B+c") []).items =
      (parseBody fromAscii (fun _ => []) .post formType (ascii "/search")
        (ascii "a=1&b=%2B+c")).items :=
  @items_get_eq_items_post fromAscii (fun _ _ => rfl) (ascii "/search") (ascii "a=1&b=%2B+c")
    (by decide) (plain_of_all (by decide)) _ _ _

/-- A second question mark ends the query. -/
theorem not_items_get_eq_items_post :
    ¬ ∀ fromUtf8 : QByteArray → Text, ReadsAscii fromUtf8 →
      ∀ (multipart : QByteArray → Items) (path q contentType body : QByteArray),
        QUESTION ∉ path → SP ∉ q → CR ∉ q → LF ∉ q →
        (parseBody fromUtf8 multipart .get contentType (path ++ QUESTION :: q) body).items =
          (parseBody fromUtf8 multipart .post formType path q).items := by
  intro h
  have hitems := h fromAscii (fun _ _ => rfl) (fun _ => []) (ascii "/") (ascii "a=1?b") [] []
    (by decide) (by decide) (by decide) (by decide)
  have hget : (parseBody fromAscii (fun _ => []) .get [] (ascii "/" ++ QUESTION :: ascii "a=1?b")
      []).items = [([97], [49])] := by decide +kernel
  have hpost : (parseBody fromAscii (fun _ => []) .post formType (ascii "/")
      (ascii "a=1?b")).items = [([97], [49, 63, 98])] := by decide +kernel
  rw [hget, hpost] at hitems
  exact absurd hitems (by decide)

/-! ### Writing a form -/

def isUnreserved (c : UInt8) : Bool :=
  (97 ≤ c && c ≤ 122) || (65 ≤ c && c ≤ 90) || isdigit c || c = 45 || c = 46 || c = 95 || c = 126

def upperHex (n : ℕ) : UInt8 := if n < 10 then UInt8.ofNat (48 + n) else UInt8.ofNat (55 + n)

def escape (c : UInt8) : QByteArray := [PERCENT, upperHex (c.toNat / 16), upperHex (c.toNat % 16)]

/-- `QByteArray::toPercentEncoding`. -/
def toPercentEncoding (b exclude include_ : QByteArray) : QByteArray :=
  b.flatMap fun c =>
    if c ≠ PERCENT ∧ (isUnreserved c ∨ c ∈ exclude) ∧ c ∉ include_ then [c] else escape c

/-- `replace("%20", "+")`. -/
def replaceSpaces : QByteArray → QByteArray
  | [] => []
  | PERCENT :: 50 :: 48 :: t => PLUS :: replaceSpaces t
  | c :: t => c :: replaceSpaces t

def toUrlEncoding (toUtf8 : Text → QByteArray) (input : Text) (exclude : QByteArray) :
    QByteArray :=
  replaceSpaces (toPercentEncoding (toUtf8 input) exclude (ascii "~"))

/-- The default of `exclude`. -/
def defaultExclude : QByteArray := ascii "-._"

/-- The form of these items. -/
def encodeItems (toUtf8 : Text → QByteArray) (items : Items) : QByteArray :=
  [AMPERSAND].intercalate (items.map fun p =>
    toUrlEncoding toUtf8 p.1 defaultExclude ++ EQUALS :: toUrlEncoding toUtf8 p.2 defaultExclude)

/-- A byte that stands for itself in a form. -/
def isKept (c : UInt8) : Bool := isUnreserved c && c ≠ 126

/-- A byte of a form. -/
def encodeByte (c : UInt8) : QByteArray :=
  if isKept c then [c] else if c = SP then [PLUS] else escape c

/-- A byte of a percent encoding. -/
def percentByte (c : UInt8) : QByteArray := if isKept c then [c] else escape c

lemma ne_of_isUnreserved {c d : UInt8} (hc : isUnreserved c = true) (hd : isUnreserved d = false) :
    c ≠ d := by
  rintro rfl
  rw [hc] at hd
  cases hd

lemma isUnreserved_of_isKept {c : UInt8} (h : isKept c = true) : isUnreserved c = true := by
  rw [isKept, Bool.and_eq_true] at h
  exact h.1

lemma isKept_iff (c : UInt8) :
    (c ≠ PERCENT ∧ (isUnreserved c ∨ c ∈ defaultExclude) ∧ c ∉ ascii "~") ↔ isKept c = true := by
  have hexclude : defaultExclude = [45, 46, 95] := by decide
  have htilde : ascii "~" = [126] := by decide
  have hunreserved : c ∈ defaultExclude → isUnreserved c = true := by
    rw [hexclude]
    intro hc
    simp only [List.mem_cons, List.not_mem_nil, or_false] at hc
    rcases hc with rfl | rfl | rfl <;> rfl
  rw [htilde, List.mem_singleton, isKept, Bool.and_eq_true, decide_eq_true_eq]
  constructor
  · rintro ⟨-, hc, hne⟩
    exact ⟨hc.elim id hunreserved, hne⟩
  · rintro ⟨hc, hne⟩
    exact ⟨ne_of_isUnreserved hc rfl, .inl hc, hne⟩

lemma toPercentEncoding_default (b : QByteArray) :
    toPercentEncoding b defaultExclude (ascii "~") = b.flatMap percentByte := by
  unfold toPercentEncoding percentByte
  simp only [isKept_iff]

lemma upperHex_digit {n : ℕ} (h : n < 16) :
    isUnreserved (upperHex n) = true ∧ hexValue (upperHex n) = UInt8.ofNat n := by
  have hall : ∀ n : Fin 16, isUnreserved (upperHex n) = true ∧
      hexValue (upperHex n) = UInt8.ofNat n := by decide +kernel
  exact hall ⟨n, h⟩

lemma high_lt (c : UInt8) : c.toNat / 16 < 16 := by
  have hc := c.toNat_lt
  omega

lemma low_lt (c : UInt8) : c.toNat % 16 < 16 := Nat.mod_lt _ (by omega)

lemma hexValue_upperHex (c : UInt8) :
    (hexValue (upperHex (c.toNat / 16)) <<< 4 ||| hexValue (upperHex (c.toNat % 16))) = c := by
  have hall : ∀ n : Fin 256,
      UInt8.ofNat (n / 16) <<< 4 ||| UInt8.ofNat (n % 16) = UInt8.ofNat n := by decide +kernel
  rw [(upperHex_digit (high_lt c)).2, (upperHex_digit (low_lt c)).2]
  have hc := hall ⟨c.toNat, c.toNat_lt⟩
  rwa [UInt8.ofNat_toNat] at hc

lemma eq_space_of_digits {c : UInt8} (hhigh : upperHex (c.toNat / 16) = 50)
    (hlow : upperHex (c.toNat % 16) = 48) : c = SP := by
  rw [← hexValue_upperHex c, hhigh, hlow]
  decide

lemma not_mem_escape {c d : UInt8} (hd : isUnreserved d = false) (hne : d ≠ PERCENT) :
    d ∉ escape c := by
  have hhigh := ne_of_isUnreserved (upperHex_digit (high_lt c)).1 hd
  have hlow := ne_of_isUnreserved (upperHex_digit (low_lt c)).1 hd
  simp [escape, hne, hhigh.symm, hlow.symm]

lemma replaceSpaces_cons {c : UInt8} (hc : c ≠ PERCENT) (t : QByteArray) :
    replaceSpaces (c :: t) = c :: replaceSpaces t := by
  rw [replaceSpaces]
  intro u hu
  exact absurd hu hc

lemma replaceSpaces_percentByte (c : UInt8) (t : QByteArray) :
    replaceSpaces (percentByte c ++ t) = encodeByte c ++ replaceSpaces t := by
  by_cases hkept : isKept c = true
  · have hc : c ≠ PERCENT := ((isKept_iff c).mpr hkept).1
    simp only [percentByte, encodeByte, hkept, if_true, List.cons_append, List.nil_append]
    exact replaceSpaces_cons hc t
  · have hhigh : upperHex (c.toNat / 16) ≠ PERCENT :=
      ne_of_isUnreserved (upperHex_digit (high_lt c)).1 rfl
    have hlow : upperHex (c.toNat % 16) ≠ PERCENT :=
      ne_of_isUnreserved (upperHex_digit (low_lt c)).1 rfl
    simp only [percentByte, encodeByte, hkept, if_false, Bool.false_eq_true]
    by_cases hc : c = SP
    · subst hc
      rfl
    · rw [if_neg hc, escape, List.cons_append, List.cons_append, List.cons_append,
        List.nil_append, replaceSpaces]
      · rw [replaceSpaces_cons hhigh, replaceSpaces_cons hlow]
        rfl
      · intro u _ hdigits
        exact hc (eq_space_of_digits (List.cons.inj hdigits).1
          (List.cons.inj (List.cons.inj hdigits).2).1)

lemma toUrlEncoding_default (toUtf8 : Text → QByteArray) (input : Text) :
    toUrlEncoding toUtf8 input defaultExclude = (toUtf8 input).flatMap encodeByte := by
  rw [toUrlEncoding, toPercentEncoding_default]
  induction toUtf8 input with
  | nil => rfl
  | cons c b ih => rw [List.flatMap_cons, replaceSpaces_percentByte, ih, List.flatMap_cons]

lemma encodeByte_plus (c : UInt8) :
    ((encodeByte c).flatMap fun c => if c = 43 then [37, 50, 48] else [c]) = percentByte c := by
  have hother : ∀ b : QByteArray, PLUS ∉ b →
      (b.flatMap fun c => if c = 43 then [37, 50, 48] else [c]) = b := by
    intro b hb
    refine (List.flatMap_congr fun c hc => if_neg ?_).trans (List.flatMap_singleton' b)
    rintro rfl
    exact hb hc
  by_cases hkept : isKept c = true
  · simp only [encodeByte, percentByte, hkept, if_true]
    refine hother [c] fun hc => ?_
    exact ne_of_isUnreserved (isUnreserved_of_isKept hkept) rfl (List.mem_singleton.mp hc).symm
  · simp only [encodeByte, percentByte, hkept, if_false, Bool.false_eq_true]
    by_cases hc : c = SP
    · subst hc
      rfl
    · rw [if_neg hc]
      exact hother _ (not_mem_escape rfl (by decide))

lemma fromPercentEncoding_cons {c : UInt8} (hc : c ≠ PERCENT) (t : QByteArray) :
    fromPercentEncoding (c :: t) = c :: fromPercentEncoding t := by
  match t with
  | [] => rfl
  | [a] => rfl
  | a :: b :: t => rw [fromPercentEncoding, if_neg hc]

lemma fromPercentEncoding_percentByte (c : UInt8) (t : QByteArray) :
    fromPercentEncoding (percentByte c ++ t) = c :: fromPercentEncoding t := by
  by_cases hkept : isKept c = true
  · have hc : c ≠ PERCENT := ((isKept_iff c).mpr hkept).1
    simp only [percentByte, hkept, if_true, List.cons_append, List.nil_append]
    exact fromPercentEncoding_cons hc t
  · simp only [percentByte, hkept, if_false, Bool.false_eq_true, escape, List.cons_append,
      List.nil_append]
    rw [fromPercentEncoding, if_pos rfl, hexValue_upperHex]

lemma fromUrlEncoding_toUrlEncoding (fromUtf8 : QByteArray → Text) (toUtf8 : Text → QByteArray)
    (input : Text) :
    fromUrlEncoding fromUtf8 (toUrlEncoding toUtf8 input defaultExclude) =
      fromUtf8 (toUtf8 input) := by
  have hdecoded : ∀ b : QByteArray, fromPercentEncoding (b.flatMap percentByte) = b := by
    intro b
    induction b with
    | nil => rfl
    | cons c b ih => rw [List.flatMap_cons, fromPercentEncoding_percentByte, ih]
  rw [toUrlEncoding_default, fromUrlEncoding, List.flatMap_assoc]
  simp only [encodeByte_plus, hdecoded]

/-! ### Reading what was written -/

lemma encodeByte_ne_nil (c : UInt8) : encodeByte c ≠ [] := by
  unfold encodeByte
  split_ifs <;> exact List.cons_ne_nil _ _

lemma not_mem_encodeByte {c d : UInt8} (hd : isUnreserved d = false) (hpercent : d ≠ PERCENT)
    (hplus : d ≠ PLUS) : d ∉ encodeByte c := by
  unfold encodeByte
  split_ifs with hkept
  · intro hc
    exact ne_of_isUnreserved (isUnreserved_of_isKept hkept) hd (List.mem_singleton.mp hc).symm
  · exact fun hc => hplus (List.mem_singleton.mp hc)
  · exact not_mem_escape hd hpercent

lemma toUrlEncoding_clean (toUtf8 : Text → QByteArray) (input : Text) :
    AMPERSAND ∉ toUrlEncoding toUtf8 input defaultExclude ∧
      EQUALS ∉ toUrlEncoding toUtf8 input defaultExclude := by
  rw [toUrlEncoding_default]
  constructor
  · intro h
    obtain ⟨c, -, hc⟩ := List.mem_flatMap.mp h
    exact not_mem_encodeByte rfl (by decide) (by decide) hc
  · intro h
    obtain ⟨c, -, hc⟩ := List.mem_flatMap.mp h
    exact not_mem_encodeByte rfl (by decide) (by decide) hc

/-- Something is written for a text that is not empty, and `fromUtf8` reads well-formed texts as
`toUtf8` writes them, but for a byte order mark. -/
structure Codes (fromUtf8 : QByteArray → Text) (toUtf8 : Text → QByteArray) : Prop where
  ne_nil : ∀ t, t ≠ [] → toUtf8 t ≠ []
  fromUtf8 : ∀ t, Utf8.WellFormed t → fromUtf8 (toUtf8 t) = Utf8.dropMark t

lemma codes_utf8 : Codes Utf8.decode Utf8.encode where
  ne_nil _ ht h := ht (Utf8.encode_eq_nil.mp h)
  fromUtf8 _ := Utf8.decode_encode

/-- What is read of a list of names and values. -/
def dropMarks (items : Items) : Items := items.map fun p => (Utf8.dropMark p.1, Utf8.dropMark p.2)

section
variable {fromUtf8 : QByteArray → Text} {toUtf8 : Text → QByteArray} {items : Items}

lemma toUrlEncoding_ne_nil (h : Codes fromUtf8 toUtf8) {t : Text} (ht : t ≠ []) :
    toUrlEncoding toUtf8 t defaultExclude ≠ [] := by
  rw [toUrlEncoding_default]
  obtain ⟨c, b, hb⟩ := List.exists_cons_of_ne_nil (h.ne_nil t ht)
  rw [hb, List.flatMap_cons]
  exact List.append_ne_nil_of_left_ne_nil (encodeByte_ne_nil c) _

lemma formItems_encodeItems_eq (h : Codes fromUtf8 toUtf8) (hnames : ∀ p ∈ items, p.1 ≠ [])
    (hitems : ∀ p ∈ items, Utf8.WellFormed p.1 ∧ Utf8.WellFormed p.2) :
    formItems fromUtf8 (encodeItems toUtf8 items) = dropMarks items := by
  by_cases hnil : items = []
  · subst hnil
    rfl
  set line : Text × Text → QByteArray := fun p =>
    toUrlEncoding toUtf8 p.1 defaultExclude ++ EQUALS :: toUrlEncoding toUtf8 p.2 defaultExclude
    with hline
  -- neither `&` nor `=` is left in an encoded name or value
  have hsplit : (encodeItems toUtf8 items).splitOn AMPERSAND = items.map line := by
    refine List.splitOn_intercalate AMPERSAND (fun l hl => ?_) (by simpa using hnil)
    obtain ⟨p, -, rfl⟩ := List.mem_map.mp hl
    simp only [List.mem_append, List.mem_cons]
    rintro (h | h | h)
    · exact (toUrlEncoding_clean toUtf8 p.1).1 h
    · exact absurd h (by decide)
    · exact (toUrlEncoding_clean toUtf8 p.2).1 h
  have hfields : ∀ p : Text × Text, (line p).splitOn EQUALS =
      [toUrlEncoding toUtf8 p.1 defaultExclude, toUrlEncoding toUtf8 p.2 defaultExclude] := by
    intro p
    rw [hline, List.splitOn_append_cons_self_of_not_mem (toUrlEncoding_clean toUtf8 p.1).2,
      List.splitOn_eq_singleton (toUrlEncoding_clean toUtf8 p.2).2]
  have hbody : (encodeItems toUtf8 items).isEmpty = false := by
    by_contra hne
    rw [Bool.not_eq_false, List.isEmpty_iff] at hne
    obtain ⟨p, items', rfl⟩ := List.exists_cons_of_ne_nil hnil
    rw [hne, List.splitOn_nil, List.map_cons] at hsplit
    have hfirst := (List.cons.inj hsplit).1
    simp [hline] at hfirst
  rw [formItems, hbody, hsplit, List.filterMap_map]
  simp only [Bool.false_eq_true, if_false, Function.comp_def, hfields]
  rw [dropMarks, ← List.filterMap_eq_map]
  refine List.filterMap_congr fun p hp => ?_
  obtain ⟨hname, hvalue⟩ := hitems p hp
  have hne := toUrlEncoding_ne_nil h (hnames p hp)
  simp only [List.getD_cons_zero, List.getD_cons_succ, List.isEmpty_iff, hne, if_false,
    fromUrlEncoding_toUrlEncoding, h.fromUtf8 _ hname, h.fromUtf8 _ hvalue, Function.comp_def]

/-- **A form is read as it was written**, but for byte order marks. -/
theorem formItems_encodeItems (h : Codes fromUtf8 toUtf8) (hnames : ∀ p ∈ items, p.1 ≠ [])
    (hitems : ∀ p ∈ items, Utf8.WellFormed p.1 ∧ Utf8.WellFormed p.2)
    (multipart : QByteArray → Items) {method : HttpMethod} (hm : takesForm method = true)
    (path : QByteArray) :
    (parseBody fromUtf8 multipart method formType path (encodeItems toUtf8 items)).formItems =
      dropMarks items := by
  rw [parseBody_form _ _ hm]
  exact formItems_encodeItems_eq h hnames hitems

end

/-- A pair twice, signs of the encoding, a letter of two bytes and a byte order mark. -/
def sampleItems : Items :=
  [([97, 32], [43, 37]), ([126], []), ([97, 32], [43, 37]), ([0xE9], [38, 61]), ([0xFEFF, 98], [])]

lemma wellFormed_sampleItems : ∀ p ∈ sampleItems, Utf8.WellFormed p.1 ∧ Utf8.WellFormed p.2 := by
  have hscalars : ∀ s ∈ [[97, 32], [43, 37], [126], [], [0xE9], [38, 61], [0xFEFF, 98]],
      Utf8.WellFormed s := fun s hs =>
    ⟨s.map UInt16.toNat, by revert s; decide, by revert s; decide⟩
  intro p hp
  constructor <;> apply hscalars <;> revert p <;> decide

theorem formItems_encodeItems_sampleItems :
    (parseBody Utf8.decode (fun _ => []) .post formType (ascii "/")
      (encodeItems Utf8.encode sampleItems)).formItems = dropMarks sampleItems :=
  formItems_encodeItems codes_utf8 (by decide) wellFormed_sampleItems _ rfl _

/-- **A name that begins with U+FEFF** is read without it. -/
theorem not_formItems_encodeItems : ¬ ∀ (fromUtf8 : QByteArray → Text) (toUtf8 : Text → QByteArray),
    Codes fromUtf8 toUtf8 → ∀ items : Items, (∀ p ∈ items, p.1 ≠ []) →
      (∀ p ∈ items, Utf8.WellFormed p.1 ∧ Utf8.WellFormed p.2) →
      (parseBody fromUtf8 (fun _ => []) .post formType (ascii "/")
        (encodeItems toUtf8 items)).formItems = items := by
  intro h
  have hread := h Utf8.decode Utf8.encode codes_utf8 sampleItems (by decide) wellFormed_sampleItems
  exact absurd hread (by decide +kernel)

end TreeFrog.HttpRequest
