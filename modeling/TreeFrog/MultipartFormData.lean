import TreeFrog.LexicalPath
import TreeFrog.Lines
import TreeFrog.MimeHeader

/-!
`TMultipartFormData`: the form fields and the files of a multipart body.

The parser reads the body line by line, by turns with a reader for headers, one for the content of
fields and one for the content of files.
-/

namespace TreeFrog.MultipartFormData

open Bytes MimeHeader
open LexicalPath (Text)

/-! ### The parser -/

/-- `QString::fromUtf8`, `toUnicode` of the codec of the application (`codecForHttpOutput`), and
whether temporary files can be opened; those that are open can be written. -/
structure Context where
  fromUtf8 : QByteArray → String
  toUnicode : QByteArray → Text
  opens : Bool

/-- A header, and what the file holds that it was stored in. -/
structure TMimeEntity where
  header : TMimeHeader
  body : QByteArray

structure TMultipartFormData where
  postParameters : List (Text × Text)
  uploadedFiles : List TMimeEntity

/-- A line of a header is added to it if it has a name. -/
def addLine (header : TMimeHeader) (line : QByteArray) : TMimeHeader :=
  match indexOf line [COLON] 0 with
  | none => header
  | some i =>
    if 0 < i then header.setHeader (trimmed (line.take i)) (trimmed (line.drop (i + 1)))
    else header

section

variable (dataBoundary : QByteArray)

def isBoundary (line : QByteArray) : Bool := dataBoundary.isPrefixOf line

/-- A device is the lines it has left. -/
def parseMimeHeader (header : TMimeHeader) :
    List QByteArray → TMimeHeader × List QByteArray
  | [] => (header, [])
  | line :: dev =>
    if line = CRLF ∨ isBoundary dataBoundary line then (header, dev)
    else parseMimeHeader (addLine header line) dev

/-- The lines in front of the next boundary. -/
def content (dev : List QByteArray) : QByteArray :=
  (dev.takeWhile fun line => !isBoundary dataBoundary line).flatten

/-- The boundary and the lines behind it. -/
def fromBoundary (dev : List QByteArray) : List QByteArray :=
  dev.dropWhile fun line => !isBoundary dataBoundary line

def parseContent (dev : List QByteArray) : QByteArray × List QByteArray :=
  (trimmed (content dataBoundary dev), (fromBoundary dataBoundary dev).tail)

/-- What is stored in the file, and the lines left; none if it cannot be opened. At a boundary two
bytes are cut off. -/
def writeContent (opens : Bool) (dev : List QByteArray) : Option (QByteArray × List QByteArray) :=
  if opens then
    let out := content dataBoundary dev
    match fromBoundary dataBoundary dev with
    | [] => some (out, [])
    | _ :: dev => some (out.take (out.length - 2), dev)
  else none

namespace TMultipartFormData

def addParameter (p : Text × Text) (d : TMultipartFormData) : TMultipartFormData :=
  { d with postParameters := p :: d.postParameters }

def addFile (e : TMimeEntity) (d : TMultipartFormData) : TMultipartFormData :=
  { d with uploadedFiles := e :: d.uploadedFiles }

end TMultipartFormData

open TMultipartFormData

/-- The loop of `parse`: what the lines left give. Every turn takes at least one line. -/
def parseLoop (ctx : Context) : ℕ → List QByteArray → TMultipartFormData
  | 0, _ => ⟨[], []⟩
  | _, [] => ⟨[], []⟩
  | fuel + 1, line :: lines =>
    let (header, dev) := parseMimeHeader dataBoundary ⟨[]⟩ (line :: lines)
    if header.isEmpty then parseLoop ctx fuel dev
    else if header.header (ascii "content-type") ≠ [] then
      if header.originalFileName ctx.fromUtf8 ≠ "" then
        match writeContent dataBoundary ctx.opens dev with
        | none => parseLoop ctx fuel dev
        | some (body, dev) => addFile ⟨header, body⟩ (parseLoop ctx fuel dev)
      else parseLoop ctx fuel dev
    else
      let (cont, dev) := parseContent dataBoundary dev
      addParameter (ctx.toUnicode header.dataName, ctx.toUnicode cont) (parseLoop ctx fuel dev)

/-- `parse` from a device on. -/
def parseLines (ctx : Context) (dev : List QByteArray) : TMultipartFormData :=
  parseLoop dataBoundary ctx dev.length dev

def parse (ctx : Context) (data : QByteArray) : TMultipartFormData :=
  parseLines dataBoundary ctx (Lines.cut LF data)

end

/-! ### Turns of the parser -/

section

variable {dataBoundary : QByteArray} {ctx : Context} {header : TMimeHeader} {line : QByteArray}
  {ls dev : List QByteArray}

lemma parseMimeHeader_crlf : parseMimeHeader dataBoundary header (CRLF :: dev) = (header, dev) := by
  rw [parseMimeHeader, if_pos (.inl rfl)]

lemma parseMimeHeader_boundary (h : isBoundary dataBoundary line = true) :
    parseMimeHeader dataBoundary header (line :: dev) = (header, dev) := by
  rw [parseMimeHeader, if_pos (.inr h)]

lemma parseMimeHeader_line (hcrlf : line ≠ CRLF) (h : isBoundary dataBoundary line = false) :
    parseMimeHeader dataBoundary header (line :: dev) =
      parseMimeHeader dataBoundary (addLine header line) dev := by
  rw [parseMimeHeader, if_neg]
  rintro (hline | hline)
  · exact hcrlf hline
  · rw [h] at hline
    exact Bool.false_ne_true hline

variable (dataBoundary) in
lemma parseMimeHeader_suffix (header : TMimeHeader) (dev : List QByteArray) :
    (parseMimeHeader dataBoundary header dev).2 <:+ dev.tail := by
  induction dev generalizing header with
  | nil => exact List.suffix_rfl
  | cons line dev ih =>
    rw [parseMimeHeader]
    split_ifs with hend
    · exact List.suffix_rfl
    · exact (ih _).trans (List.tail_suffix dev)

variable (dataBoundary) in
lemma fromBoundary_suffix (dev : List QByteArray) : fromBoundary dataBoundary dev <:+ dev :=
  List.dropWhile_suffix _

lemma length_writeContent {opens : Bool} {body : QByteArray} {rest : List QByteArray}
    (h : writeContent dataBoundary opens dev = some (body, rest)) : rest.length ≤ dev.length := by
  have hle := (fromBoundary_suffix dataBoundary dev).length_le
  unfold writeContent at h
  split_ifs at h
  cases hfrom : fromBoundary dataBoundary dev with
  | nil =>
    rw [hfrom] at h
    cases h
    exact Nat.zero_le _
  | cons line rest =>
    rw [hfrom] at h hle
    cases h
    exact (Nat.le_succ _).trans hle

variable (dataBoundary) in
lemma length_parseContent (dev : List QByteArray) :
    (parseContent dataBoundary dev).2.length ≤ dev.length :=
  ((List.tail_suffix _).trans (fromBoundary_suffix dataBoundary dev)).length_le

variable (dataBoundary ctx) in
/-- **The parser ends**: more turns than there are lines change nothing. -/
theorem parseLoop_enough {n m : ℕ} (hn : dev.length ≤ n) (hm : dev.length ≤ m) :
    parseLoop dataBoundary ctx n dev = parseLoop dataBoundary ctx m dev := by
  induction n generalizing m dev with
  | zero =>
    obtain rfl := List.length_eq_zero_iff.mp (Nat.le_zero.mp hn)
    cases m <;> rfl
  | succ n ih =>
    obtain _ | ⟨line, lines⟩ := dev
    · cases m <;> rfl
    obtain _ | m := m
    · simp at hm
    rw [List.length_cons, Nat.add_le_add_iff_right] at hn hm
    have hrest := (parseMimeHeader_suffix dataBoundary ⟨[]⟩
      (line :: lines)).length_le
    rw [List.tail_cons] at hrest
    rw [parseLoop, parseLoop]
    generalize parseMimeHeader dataBoundary ⟨[]⟩ (line :: lines) = r at hrest ⊢
    obtain ⟨header, dev⟩ := r
    dsimp only at hrest ⊢
    split_ifs
    · exact ih (by omega) (by omega)
    · cases hwrite : writeContent dataBoundary ctx.opens dev with
      | none => exact ih (by omega) (by omega)
      | some r =>
        obtain ⟨body, rest⟩ := r
        have hlength := length_writeContent hwrite
        exact congrArg (TMultipartFormData.addFile ⟨header, body⟩) (ih (by omega) (by omega))
    · exact ih (by omega) (by omega)
    · have hlength := length_parseContent dataBoundary dev
      exact congrArg _ (ih (by omega) (by omega))

section

variable {lines : List QByteArray}
  (hheader : parseMimeHeader dataBoundary ⟨[]⟩ (line :: lines) = (header, dev))

include hheader

lemma length_of_header : dev.length ≤ lines.length := by
  have hsuffix := parseMimeHeader_suffix dataBoundary ⟨[]⟩ (line :: lines)
  rw [hheader] at hsuffix
  exact hsuffix.length_le

lemma parseLines_skip (h : header.isEmpty = true ∨ header.header (ascii "content-type") ≠ [] ∧
    header.originalFileName ctx.fromUtf8 = "") :
    parseLines dataBoundary ctx (line :: lines) = parseLines dataBoundary ctx dev := by
  have hloop := parseLoop_enough dataBoundary ctx
    (length_of_header hheader) (Nat.le_refl _)
  rw [parseLines, List.length_cons, parseLoop, hheader]
  dsimp only
  cases hempty : header.isEmpty with
  | true => exact hloop
  | false =>
    obtain h | ⟨htype, hname⟩ := h
    · exact absurd (h.symm.trans hempty) (by decide)
    · rw [if_neg (by decide), if_pos htype, if_neg (not_not_intro hname)]
      exact hloop

variable (ctx) in
lemma parseLines_field (hempty : header.isEmpty = false)
    (htype : header.header (ascii "content-type") = []) :
    parseLines dataBoundary ctx (line :: lines) =
      TMultipartFormData.addParameter
        (ctx.toUnicode header.dataName, ctx.toUnicode (parseContent dataBoundary dev).1)
        (parseLines dataBoundary ctx (parseContent dataBoundary dev).2) := by
  have hlength := (length_parseContent dataBoundary dev).trans (length_of_header hheader)
  rw [parseLines, List.length_cons, parseLoop, hheader]
  dsimp only
  rw [hempty, if_neg (by decide), if_neg (not_not_intro htype)]
  exact congrArg _ (parseLoop_enough _ _ hlength (Nat.le_refl _))

lemma parseLines_file {body : QByteArray} {rest : List QByteArray}
    (hempty : header.isEmpty = false) (htype : header.header (ascii "content-type") ≠ [])
    (hname : header.originalFileName ctx.fromUtf8 ≠ "")
    (hwrite : writeContent dataBoundary ctx.opens dev = some (body, rest)) :
    parseLines dataBoundary ctx (line :: lines) =
      TMultipartFormData.addFile ⟨header, body⟩ (parseLines dataBoundary ctx rest) := by
  have hlength := (length_writeContent hwrite).trans (length_of_header hheader)
  rw [parseLines, List.length_cons, parseLoop, hheader]
  dsimp only
  rw [hempty, if_neg (by decide), if_pos htype, if_pos hname, hwrite]
  exact congrArg (TMultipartFormData.addFile ⟨header, body⟩)
    (parseLoop_enough _ _ hlength (Nat.le_refl _))

lemma parseLines_unwritten (hempty : header.isEmpty = false)
    (htype : header.header (ascii "content-type") ≠ [])
    (hname : header.originalFileName ctx.fromUtf8 ≠ "")
    (hwrite : writeContent dataBoundary ctx.opens dev = none) :
    parseLines dataBoundary ctx (line :: lines) = parseLines dataBoundary ctx dev := by
  rw [parseLines, List.length_cons, parseLoop, hheader]
  dsimp only
  rw [hempty, if_neg (by decide), if_pos htype, if_pos hname, hwrite]
  exact parseLoop_enough _ _ (length_of_header hheader) (Nat.le_refl _)

end

end

/-! ### How much is stored -/

def TMultipartFormData.size (d : TMultipartFormData) : ℕ :=
  d.postParameters.length + d.uploadedFiles.length

lemma size_addParameter (p : Text × Text) (d : TMultipartFormData) :
    (d.addParameter p).size = d.size + 1 := by
  rw [TMultipartFormData.size, TMultipartFormData.addParameter, List.length_cons,
    Nat.add_right_comm]
  rfl

lemma size_addFile (e : TMimeEntity) (d : TMultipartFormData) :
    (d.addFile e).size = d.size + 1 := rfl

end TreeFrog.MultipartFormData
