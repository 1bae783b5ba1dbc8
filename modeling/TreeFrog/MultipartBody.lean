import TreeFrog.MultipartFormData
import TreeFrog.Utf8

/-!
Multipart bodies, and what the parser makes of one of their parts.

The name of a field and the content of a file are found. A form field with a content type is left
alone behind its header.
-/

namespace TreeFrog.MultipartBody

open Bytes MimeHeader MimeHeader.Parameters MultipartFormData
open LexicalPath (Text)

/-! ### The format -/

/-- The name and the content of a form field are texts, and sent in UTF-8. -/
inductive Part where
  | field (name content : Text) (contentType : Option QByteArray)
  | file (name fileName contentType content : QByteArray)

def disposition (name : QByteArray) (fileName : Option QByteArray) : QByteArray :=
  ascii "form-data; name=\"" ++ escape name ++ [QUOTE] ++
    match fileName with
    | none => []
    | some fileName => ascii "; filename=\"" ++ escape fileName ++ [QUOTE]

namespace Part

def name : Part → QByteArray
  | field name .. => Utf8.encode name
  | file name .. => name

def content : Part → QByteArray
  | field _ content _ => Utf8.encode content
  | file _ _ _ content => content

def fileName : Part → Option QByteArray
  | field .. => none
  | file _ fileName .. => some fileName

def contentType : Part → Option QByteArray
  | field _ _ contentType => contentType
  | file _ _ contentType _ => some contentType

variable (p : Part)

/-- The lines of the header. -/
def headers : List QByteArray :=
  (ascii "Content-Disposition: " ++ disposition p.name p.fileName ++ CRLF) ::
    p.contentType.toList.map fun t => ascii "Content-Type: " ++ t ++ CRLF

/-- What a form field should give. -/
def field? : Part → Option (Text × Text)
  | field name content _ => some (name, content)
  | file .. => none

/-- What should be stored of a file. -/
def file? : Part → Option QByteArray
  | field .. => none
  | file _ _ _ content => some content

/-- A part that can be sent: header lines have no line feed in them, a file has a name, a content
type says something, no line of the content is taken for the boundary, and the texts of a form field
are well formed. -/
structure Valid (ctx : Context) (dataBoundary : QByteArray) (p : Part) : Prop where
  name : LF ∉ p.name
  fileName : ∀ f, p.fileName = some f → LF ∉ f ∧ ctx.fromUtf8 (constData f) ≠ ""
  contentType : ∀ t, p.contentType = some t → LF ∉ t ∧ trimmed t ≠ []
  content : ∀ line ∈ Lines.cut LF (p.content ++ CRLF), isBoundary dataBoundary line = false
  text : ∀ t ∈ p.field?, Utf8.WellFormed t.1 ∧ Utf8.WellFormed t.2

/-- A file; or a form field without a content type, without white space at the ends of its content,
and of which neither name nor content begins with a byte order mark. -/
def Plain : Part → Prop
  | field name content contentType =>
    contentType = none ∧ trimmed (Utf8.encode content) = Utf8.encode content ∧
      name.head? ≠ some 0xFEFF ∧ content.head? ≠ some 0xFEFF
  | file .. => True

end Part

/-- The body of a request. -/
def encode (dataBoundary : QByteArray) : List Part → QByteArray
  | [] => dataBoundary ++ ascii "--" ++ CRLF
  | p :: ps =>
    dataBoundary ++ CRLF ++ p.headers.flatten ++ CRLF ++ p.content ++ CRLF ++ encode dataBoundary ps

/-- **Round trip**: the form fields and the files of the body are found, in order. -/
structure RoundTrip (ctx : Context) (dataBoundary : QByteArray) (ps : List Part) : Prop where
  fields : (parse dataBoundary ctx (encode dataBoundary ps)).postParameters =
    ps.filterMap Part.field?
  files : (parse dataBoundary ctx (encode dataBoundary ps)).uploadedFiles.map TMimeEntity.body =
    ps.filterMap Part.file?

/-! ### The header of a part -/

lemma isWord_formData : IsWord (ascii "form-data") :=
  ⟨by decide, by decide, by decide, by decide, by decide⟩

lemma isWord_name : IsWord (ascii "name") :=
  ⟨by decide, by decide, by decide, by decide, by decide⟩

lemma isWord_filename : IsWord (ascii "filename") :=
  ⟨by decide, by decide, by decide, by decide, by decide⟩

lemma isWord_quote : IsWord [QUOTE] := ⟨by decide, by decide, by decide, by decide, by decide⟩

lemma parameters_disposition (name : QByteArray) (fileName : Option QByteArray) :
    parseHeaderParameter (disposition name fileName) (ascii "name") = name ∧
      parseHeaderParameter (disposition name fileName) (ascii "filename") = fileName.getD [] := by
  have henough : parseHeaderParameter (disposition name fileName) =
      parameters ((disposition name fileName).length + 5) (disposition name fileName) fun _ => [] :=
    parameters_enough (by omega) (by omega) _
  cases fileName with
  | none =>
    have htext : disposition name none = ascii "form-data" ++ SEMICOLON :: (SP :: ascii "name" ++
        EQUAL :: QUOTE :: (escape name ++ QUOTE :: [])) := by
      simp [disposition, ascii]
      decide
    rw [henough]
    generalize (disposition name none).length = k
    rw [htext, parameters_word isWord_formData, parameters_quoted isWord_name,
      parameters_last isWord_quote]
    constructor
    · rw [insert_of_ne (by decide), insert_self]
    · rw [insert_of_ne (by decide), insert_of_ne (by decide), insert_of_ne (by decide)]
      rfl
  | some f =>
    have htext : disposition name (some f) = ascii "form-data" ++
        SEMICOLON :: (SP :: ascii "name" ++ EQUAL :: QUOTE :: (escape name ++ QUOTE ::
          (SEMICOLON :: (SP :: ascii "filename" ++
            EQUAL :: QUOTE :: (escape f ++ QUOTE :: []))))) := by
      simp [disposition, ascii]
      decide
    rw [henough]
    generalize (disposition name (some f)).length = k
    rw [htext, parameters_word isWord_formData, parameters_quoted isWord_name,
      ← List.singleton_append, parameters_word isWord_quote, parameters_quoted isWord_filename,
      parameters_last isWord_quote]
    constructor
    · rw [insert_of_ne (by decide), insert_of_ne (by decide), insert_of_ne (by decide),
        insert_self]
    · rw [insert_of_ne (by decide), insert_self]
      rfl

lemma isLine_crlf {l : QByteArray} (h : LF ∉ l) : Lines.IsLine LF (l ++ CRLF) :=
  ⟨l ++ [CR], by simpa [CR, LF] using h, by simp [CRLF]⟩

lemma addLine_field (key : QByteArray) (hcolon : COLON ∉ key) (hkey : trimmed key = key)
    (hne : key ≠ []) (h : TMimeHeader) (value : QByteArray) :
    addLine h (key ++ COLON :: SP :: (value ++ CRLF)) = h.setHeader key (trimmed value) := by
  have hpos : 0 < key.length := List.length_pos_iff.mpr hne
  have hindex : indexOf (key ++ COLON :: SP :: (value ++ CRLF)) [COLON] 0 = some key.length := by
    have hsingle := @indexOf_singleton [] key (SP :: (value ++ CRLF)) COLON hcolon
    rwa [List.nil_append, List.length_nil, Nat.zero_add] at hsingle
  have hvalue : trimmed (SP :: (value ++ CRLF)) = trimmed value := by
    rw [trimmed_cons_space (by decide), show value ++ CRLF = value ++ [CR] ++ [LF] by simp [CRLF],
      trimmed_append_space (by decide), trimmed_append_space (by decide)]
  rw [addLine, hindex]
  dsimp only
  rw [if_pos hpos, List.take_left, hkey, ← List.drop_drop, List.drop_left]
  exact congrArg _ hvalue

lemma trimmed_disposition (name : QByteArray) (fileName : Option QByteArray) :
    trimmed (disposition name fileName) = disposition name fileName := by
  refine trimmed_of_ends (fun c hc => ?_) (fun c hc => ?_)
  · obtain rfl : 102 = c := Option.some.inj hc
    decide
  · have hlast : (disposition name fileName).getLast? = some QUOTE := by
      cases fileName with
      | none => rw [disposition, List.append_nil, List.getLast?_concat]
      | some f =>
        rw [disposition, ← List.append_assoc, List.getLast?_concat]
    rw [hlast] at hc
    obtain rfl := Option.some.inj hc
    decide

namespace Part

variable (p : Part)

/-- The header, as it is parsed. -/
def header : TMimeHeader :=
  ⟨(ascii "Content-Disposition", disposition p.name p.fileName) ::
    p.contentType.toList.map fun t => (ascii "Content-Type", trimmed t)⟩

lemma header_contentType : p.header.header (ascii "content-type") =
    (p.contentType.map trimmed).getD [] := by
  rw [header, TMimeHeader.header_cons, if_neg (by decide)]
  cases p.contentType with
  | none => rfl
  | some t => exact (TMimeHeader.header_cons _ _ _ _).trans (if_pos (by decide))

lemma header_disposition :
    p.header.header (ascii "content-disposition") = disposition p.name p.fileName := by
  rw [header, TMimeHeader.header_cons, if_pos (by decide)]

lemma dataName_header : p.header.dataName = p.name := by
  rw [TMimeHeader.dataName, TMimeHeader.contentDispositionParameter, header_disposition]
  exact (parameters_disposition _ _).1

lemma originalFileName_header (fromUtf8 : QByteArray → String) :
    p.header.originalFileName fromUtf8 = fromUtf8 (constData (p.fileName.getD [])) := by
  rw [TMimeHeader.originalFileName, TMimeHeader.contentDispositionParameter, header_disposition,
    (parameters_disposition _ _).2]

end Part

/-! ### The lines of a body -/

section

variable {dataBoundary : QByteArray} {line d : QByteArray} {ls dev : List QByteArray}

lemma content_append (hls : ∀ l ∈ ls, isBoundary dataBoundary l = false)
    (hd : isBoundary dataBoundary d = true) (dev : List QByteArray) :
    content dataBoundary (ls ++ d :: dev) = ls.flatten := by
  have hpos : ∀ l ∈ ls, (!isBoundary dataBoundary l) = true := fun l hl => by rw [hls l hl]; rfl
  rw [content, List.takeWhile_append_of_pos hpos, List.takeWhile_cons_of_neg (by simp [hd]),
    List.append_nil]

lemma fromBoundary_append (hls : ∀ l ∈ ls, isBoundary dataBoundary l = false)
    (hd : isBoundary dataBoundary d = true) (dev : List QByteArray) :
    fromBoundary dataBoundary (ls ++ d :: dev) = d :: dev := by
  have hpos : ∀ l ∈ ls, (!isBoundary dataBoundary l) = true := fun l hl => by rw [hls l hl]; rfl
  rw [fromBoundary, List.dropWhile_append_of_pos hpos, List.dropWhile_cons_of_neg (by simp [hd])]

lemma parseContent_append (hls : ∀ l ∈ ls, isBoundary dataBoundary l = false)
    (hd : isBoundary dataBoundary d = true) (dev : List QByteArray) :
    parseContent dataBoundary (ls ++ d :: dev) = (trimmed ls.flatten, dev) := by
  rw [parseContent, content_append hls hd, fromBoundary_append hls hd]
  rfl

lemma writeContent_append (hls : ∀ l ∈ ls, isBoundary dataBoundary l = false)
    (hd : isBoundary dataBoundary d = true) (dev : List QByteArray) :
    writeContent dataBoundary true (ls ++ d :: dev) =
      some (ls.flatten.take (ls.flatten.length - 2), dev) := by
  rw [writeContent, if_pos rfl, content_append hls hd, fromBoundary_append hls hd]

end

section

variable {b : QByteArray} {line : QByteArray}

lemma head_of_isBoundary (h : isBoundary (ascii "--" ++ b) line = true) :
    line.head? = some 45 := by
  obtain ⟨t, rfl⟩ := List.isPrefixOf_iff_prefix.mp h
  rfl

lemma isBoundary_crlf : isBoundary (ascii "--" ++ b) CRLF = false := by
  by_contra h
  exact absurd (head_of_isBoundary (Bool.eq_true_of_not_eq_false h)) (by decide)

lemma isBoundary_append (t : QByteArray) :
    isBoundary (ascii "--" ++ b) (ascii "--" ++ b ++ t) = true :=
  List.isPrefixOf_iff_prefix.mpr (List.prefix_append _ _)

variable (b) in
/-- The line in front of a part, or behind the last one. -/
def delimiter : List Part → QByteArray
  | [] => ascii "--" ++ b ++ ascii "--" ++ CRLF
  | _ :: _ => ascii "--" ++ b ++ CRLF

variable (b) in
/-- The lines behind the first boundary. -/
def after : List Part → List QByteArray
  | [] => []
  | p :: ps => p.headers ++ CRLF :: (Lines.cut LF (p.content ++ CRLF) ++ delimiter b ps :: after ps)

lemma isBoundary_delimiter (ps : List Part) :
    isBoundary (ascii "--" ++ b) (delimiter b ps) = true := by
  cases ps with
  | nil =>
    rw [delimiter, List.append_assoc]
    exact isBoundary_append _
  | cons p ps => exact isBoundary_append _

lemma notMem_escape {text : QByteArray} (h : LF ∉ text) : LF ∉ escape text := by
  intro hmem
  obtain ⟨c, hc, hmem⟩ := List.mem_flatMap.mp hmem
  split_ifs at hmem
  · obtain hback | hmem := List.mem_cons.mp hmem
    · exact absurd hback (by decide)
    · exact h (List.mem_singleton.mp hmem ▸ hc)
  · exact h (List.mem_singleton.mp hmem ▸ hc)

lemma notMem_disposition {ctx : Context} {dataBoundary : QByteArray} {p : Part}
    (hp : p.Valid ctx dataBoundary) : LF ∉ disposition p.name p.fileName := by
  have hname := notMem_escape hp.name
  have hfront : LF ∉ ascii "form-data; name=\"" := by decide
  have hquote : LF ∉ [QUOTE] := by decide
  have hleft : LF ∉ ascii "form-data; name=\"" ++ escape p.name ++ [QUOTE] := by
    simp only [List.mem_append, not_or]
    exact ⟨⟨hfront, hname⟩, hquote⟩
  unfold disposition
  cases hfile : p.fileName with
  | none => exact fun h => hleft (by simpa using h)
  | some f =>
    have hf := notMem_escape (hp.fileName f hfile).1
    have hsecond : LF ∉ ascii "; filename=\"" := by decide
    simp only [List.mem_append, not_or]
    exact ⟨⟨⟨hfront, hname⟩, hquote⟩, ⟨hsecond, hf⟩, hquote⟩

lemma headers_spec {ctx : Context} {p : Part} (hp : p.Valid ctx (ascii "--" ++ b)) :
    ∀ l ∈ p.headers, Lines.IsLine LF l ∧ l ≠ CRLF ∧ isBoundary (ascii "--" ++ b) l = false := by
  have hfirst {l : QByteArray} (h : l.head? = some 67) :
      l ≠ CRLF ∧ isBoundary (ascii "--" ++ b) l = false := by
    refine ⟨fun hl => absurd (hl ▸ h) (by decide), ?_⟩
    by_contra hb
    have hhead := head_of_isBoundary (Bool.eq_true_of_not_eq_false hb)
    exact absurd (h.symm.trans hhead) (by decide)
  intro l hl
  obtain rfl | hl := List.mem_cons.mp hl
  · refine ⟨isLine_crlf ?_, hfirst rfl⟩
    have hascii : LF ∉ ascii "Content-Disposition: " := by decide
    simpa using ⟨hascii, notMem_disposition hp⟩
  · obtain ⟨t, ht, rfl⟩ := List.mem_map.mp hl
    refine ⟨isLine_crlf ?_, hfirst rfl⟩
    have hascii : LF ∉ ascii "Content-Type: " := by decide
    simpa using ⟨hascii, (hp.contentType t (Option.mem_toList.mp ht)).1⟩

lemma cut_encode {ctx : Context} (hb : LF ∉ b) {ps : List Part}
    (hps : ∀ p ∈ ps, p.Valid ctx (ascii "--" ++ b)) :
    Lines.cut LF (encode (ascii "--" ++ b) ps) = delimiter b ps :: after b ps := by
  have hdash : LF ∉ ascii "--" := by decide
  have hboundary : LF ∉ ascii "--" ++ b ++ [CR] := by
    simp only [List.mem_append, not_or]
    exact ⟨⟨hdash, hb⟩, by decide⟩
  induction ps with
  | nil =>
    have hline : Lines.IsLine LF (ascii "--" ++ b ++ ascii "--" ++ CRLF) := by
      refine isLine_crlf ?_
      simp only [List.mem_append, not_or]
      exact ⟨⟨hdash, hb⟩, hdash⟩
    obtain ⟨x, hx, hline⟩ := hline
    rw [encode, delimiter, hline, Lines.cut_singleton_line hx, after]
  | cons p ps ih =>
    obtain ⟨hp, hps⟩ := List.forall_mem_cons.mp hps
    have htext : encode (ascii "--" ++ b) (p :: ps) = (ascii "--" ++ b ++ [CR]) ++ LF ::
        (p.headers.flatten ++ ([CR] ++ LF :: ((p.content ++ [CR]) ++ LF ::
          encode (ascii "--" ++ b) ps))) := by
      simp [encode, CRLF]
    have hcontent : p.content ++ [CR] ++ [LF] = p.content ++ CRLF := by simp [CRLF]
    have hwhole : ∀ l ∈ p.headers, Lines.IsLine LF l := fun l hl => (headers_spec hp l hl).1
    rw [htext, Lines.cut_line hboundary, Lines.cut_flatten_append hwhole,
      Lines.cut_line (by decide), Lines.cut_append_sep, ih hps, hcontent, after, delimiter]
    simp [CRLF]

lemma parseMimeHeader_headers {ctx : Context} {p : Part} (hp : p.Valid ctx (ascii "--" ++ b))
    (dev : List QByteArray) :
    parseMimeHeader (ascii "--" ++ b) ⟨[]⟩ (p.headers ++ CRLF :: dev) = (p.header, dev) := by
  have hspec := headers_spec hp
  have hdisposition : addLine ⟨[]⟩ (ascii "Content-Disposition: " ++
      disposition p.name p.fileName ++ CRLF) =
      ⟨[(ascii "Content-Disposition", disposition p.name p.fileName)]⟩ := by
    have hline := addLine_field (ascii "Content-Disposition") (by decide) (by decide)
      (by decide) ⟨[]⟩ (disposition p.name p.fileName)
    rw [trimmed_disposition] at hline
    rw [show ascii "Content-Disposition: " = ascii "Content-Disposition" ++ [COLON, SP] by decide]
    simpa [TMimeHeader.setHeader] using hline
  unfold Part.headers Part.header at *
  rw [List.cons_append, parseMimeHeader_line (hspec _ List.mem_cons_self).2.1
    (hspec _ List.mem_cons_self).2.2, hdisposition]
  cases htype : p.contentType with
  | none => exact parseMimeHeader_crlf
  | some t =>
    rw [htype] at hspec
    have htypespec := hspec _ (List.mem_cons_of_mem _ List.mem_cons_self)
    rw [Option.toList_some, List.map_singleton, List.map_singleton, List.singleton_append,
      parseMimeHeader_line htypespec.2.1 htypespec.2.2, parseMimeHeader_crlf]
    have hline := addLine_field (ascii "Content-Type") (by decide) (by decide) (by decide)
      ⟨[(ascii "Content-Disposition", disposition p.name p.fileName)]⟩ t
    rw [show ascii "Content-Type: " = ascii "Content-Type" ++ [COLON, SP] by decide]
    simpa [TMimeHeader.setHeader] using hline

end

/-! ### What a part gives -/

section

variable {b : QByteArray} {ctx : Context} {ps : List Part}

variable (ps) in
lemma parse_field {name content : Text}
    (hp : (Part.field name content none).Valid ctx (ascii "--" ++ b)) :
    parseLines (ascii "--" ++ b) ctx (after b (.field name content none :: ps)) =
      TMultipartFormData.addParameter
        (ctx.toUnicode (Utf8.encode name), ctx.toUnicode (trimmed (Utf8.encode content)))
        (parseLines (ascii "--" ++ b) ctx (after b ps)) := by
  set sent := Utf8.encode content with hsent
  have hheader := parseMimeHeader_headers hp
    (Lines.cut LF (sent ++ CRLF) ++ delimiter b ps :: after b ps)
  have htype : (Part.field name content none).header.header (ascii "content-type") = [] :=
    Part.header_contentType _
  have hcontent : parseContent (ascii "--" ++ b)
      (Lines.cut LF (sent ++ CRLF) ++ delimiter b ps :: after b ps) =
      (trimmed sent, after b ps) := by
    have hlines : ∀ line ∈ Lines.cut LF (sent ++ CRLF),
        isBoundary (ascii "--" ++ b) line = false := hp.content
    rw [parseContent_append hlines (isBoundary_delimiter ps), Lines.flatten_cut,
      show sent ++ CRLF = sent ++ [CR] ++ [LF] by simp [CRLF],
      trimmed_append_space (by decide), trimmed_append_space (by decide)]
  have hparse := parseLines_field ctx hheader rfl htype
  rw [hcontent, Part.dataName_header] at hparse
  exact hparse

lemma parse_typed {name content : Text} {t : QByteArray} (hempty : ctx.fromUtf8 [] = "")
    (hp : (Part.field name content (some t)).Valid ctx (ascii "--" ++ b)) :
    parseLines (ascii "--" ++ b) ctx (after b (.field name content (some t) :: ps)) =
      parseLines (ascii "--" ++ b) ctx
        (Lines.cut LF (Utf8.encode content ++ CRLF) ++ delimiter b ps :: after b ps) := by
  have hheader := parseMimeHeader_headers hp
    (Lines.cut LF (Utf8.encode content ++ CRLF) ++ delimiter b ps :: after b ps)
  have htype : (Part.field name content (some t)).header.header (ascii "content-type") ≠ [] := by
    rw [Part.header_contentType]
    exact (hp.contentType t rfl).2
  have hname : (Part.field name content (some t)).header.originalFileName ctx.fromUtf8 = "" :=
    (Part.originalFileName_header _ _).trans hempty
  exact parseLines_skip hheader (.inr ⟨htype, hname⟩)

variable (ps) in
lemma parse_file {name fileName t content : QByteArray} (hopens : ctx.opens = true)
    (hp : (Part.file name fileName t content).Valid ctx (ascii "--" ++ b)) :
    parseLines (ascii "--" ++ b) ctx (after b (.file name fileName t content :: ps)) =
      TMultipartFormData.addFile ⟨(Part.file name fileName t content).header, content⟩
        (parseLines (ascii "--" ++ b) ctx (after b ps)) := by
  have hheader := parseMimeHeader_headers hp
    (Lines.cut LF (content ++ CRLF) ++ delimiter b ps :: after b ps)
  have htype : (Part.file name fileName t content).header.header (ascii "content-type") ≠ [] := by
    rw [Part.header_contentType]
    exact (hp.contentType t rfl).2
  have hname : (Part.file name fileName t content).header.originalFileName ctx.fromUtf8 ≠ "" := by
    rw [Part.originalFileName_header]
    exact (hp.fileName fileName rfl).2
  have hwrite : writeContent (ascii "--" ++ b) ctx.opens
      (Lines.cut LF (content ++ CRLF) ++ delimiter b ps :: after b ps) =
      some (content, after b ps) := by
    have hlines : ∀ line ∈ Lines.cut LF (content ++ CRLF),
        isBoundary (ascii "--" ++ b) line = false := hp.content
    rw [hopens, writeContent_append hlines (isBoundary_delimiter ps), Lines.flatten_cut,
      List.length_append, show CRLF.length = 2 from rfl, Nat.add_sub_cancel, List.take_left]
  exact parseLines_file hheader rfl htype hname hwrite

lemma parse_encode (hb : LF ∉ b) (hps : ∀ p ∈ ps, p.Valid ctx (ascii "--" ++ b)) :
    parse (ascii "--" ++ b) ctx (encode (ascii "--" ++ b) ps) =
      parseLines (ascii "--" ++ b) ctx (after b ps) := by
  rw [parse, cut_encode hb hps]
  exact parseLines_skip (parseMimeHeader_boundary (isBoundary_delimiter ps)) (.inl rfl)

end

end TreeFrog.MultipartBody
