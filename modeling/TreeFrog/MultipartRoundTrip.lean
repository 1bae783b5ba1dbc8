import TreeFrog.MultipartBody

/-!
When a multipart body is read back.

Behind the header of a form field with a content type the parser reads the content as headers.
What it finds there may be stored, but a stored part takes a boundary, so that a part found in the
content must make up for the one that is lost; and then a colon of the content is missing in it.
-/

namespace TreeFrog.MultipartRoundTrip

open Bytes MimeHeader MultipartFormData MultipartBody
open LexicalPath (Text fromAscii)

/-! ### Counting -/

section

variable {b : QByteArray} {ctx : Context} {header : TMimeHeader} {line : QByteArray}
  {dev lines : List QByteArray}

variable (b) in
/-- A boundary comes last. -/
def Ended (dev : List QByteArray) : Prop :=
  ∀ line ∈ dev.getLast?, isBoundary (ascii "--" ++ b) line = true

variable (b) in
def boundaries (dev : List QByteArray) : ℕ := dev.countP (isBoundary (ascii "--" ++ b))

lemma Ended.suffix {rest : List QByteArray} (h : Ended b dev) (hs : rest <:+ dev) :
    Ended b rest := by
  obtain ⟨pre, rfl⟩ := hs
  intro line hline
  have hne : rest ≠ [] := by
    rintro rfl
    exact absurd hline (by simp)
  exact h line (by rwa [List.getLast?_append_of_ne_nil _ hne])

lemma Ended.tail_ne_nil (h : Ended b (line :: dev))
    (hline : isBoundary (ascii "--" ++ b) line = false) : dev ≠ [] := by
  rintro rfl
  exact absurd ((h line rfl).symm.trans hline) (by decide)

lemma boundaries_cons_of_true (h : isBoundary (ascii "--" ++ b) line = true)
    (dev : List QByteArray) : boundaries b (line :: dev) = boundaries b dev + 1 :=
  List.countP_cons_of_pos h

lemma boundaries_cons_of_false (h : isBoundary (ascii "--" ++ b) line = false)
    (dev : List QByteArray) : boundaries b (line :: dev) = boundaries b dev :=
  List.countP_cons_of_neg (by simp [h])

lemma boundaries_header (header : TMimeHeader) (hne : dev ≠ []) (hend : Ended b dev) :
    boundaries b (parseMimeHeader (ascii "--" ++ b) header dev).2 + 1 ≤ boundaries b dev ∨
      (parseMimeHeader (ascii "--" ++ b) header dev).2 ≠ [] ∧
        boundaries b (parseMimeHeader (ascii "--" ++ b) header dev).2 ≤ boundaries b dev := by
  induction dev generalizing header with
  | nil => exact absurd rfl hne
  | cons line dev ih =>
    cases hline : isBoundary (ascii "--" ++ b) line with
    | true =>
      rw [parseMimeHeader_boundary hline, boundaries_cons_of_true hline]
      exact .inl (Nat.le_refl _)
    | false =>
      have hdev := hend.tail_ne_nil hline
      rw [boundaries_cons_of_false hline]
      by_cases hcrlf : line = CRLF
      · rw [hcrlf, parseMimeHeader_crlf]
        exact .inr ⟨hdev, Nat.le_refl _⟩
      · rw [parseMimeHeader_line hcrlf hline]
        exact ih _ hdev (hend.suffix (List.suffix_cons line dev))

lemma boundaries_content (hne : dev ≠ []) (hend : Ended b dev) :
    boundaries b (fromBoundary (ascii "--" ++ b) dev).tail + 1 = boundaries b dev := by
  induction dev with
  | nil => exact absurd rfl hne
  | cons line dev ih =>
    rw [fromBoundary]
    cases hline : isBoundary (ascii "--" ++ b) line with
    | true =>
      rw [List.dropWhile_cons_of_neg (by simp [hline]), boundaries_cons_of_true hline]
      rfl
    | false =>
      rw [List.dropWhile_cons_of_pos (by simp [hline]), boundaries_cons_of_false hline]
      exact ih (hend.tail_ne_nil hline) (hend.suffix (List.suffix_cons line dev))

variable (ctx) in
lemma parseLines_cases {dataBoundary : QByteArray}
    (hheader : parseMimeHeader dataBoundary ⟨[]⟩ (line :: lines) = (header, dev)) :
    parseLines dataBoundary ctx (line :: lines) = parseLines dataBoundary ctx dev ∨
    header.isEmpty = false ∧
      ((∃ name, parseLines dataBoundary ctx (line :: lines) =
        TMultipartFormData.addParameter
          (name, ctx.toUnicode (trimmed (content dataBoundary dev)))
          (parseLines dataBoundary ctx (fromBoundary dataBoundary dev).tail)) ∨
      ∃ e, parseLines dataBoundary ctx (line :: lines) =
        TMultipartFormData.addFile e
          (parseLines dataBoundary ctx (fromBoundary dataBoundary dev).tail)) := by
  cases hempty : header.isEmpty with
  | true => exact .inl (parseLines_skip hheader (.inl hempty))
  | false =>
    by_cases htype : header.header (ascii "content-type") = []
    · exact .inr ⟨rfl, .inl ⟨_, parseLines_field ctx hheader hempty htype⟩⟩
    · by_cases hname : header.originalFileName ctx.fromUtf8 = ""
      · exact .inl (parseLines_skip hheader (.inr ⟨htype, hname⟩))
      · cases hwrite : writeContent dataBoundary ctx.opens dev with
        | none => exact .inl (parseLines_unwritten hheader hempty htype hname hwrite)
        | some r =>
          obtain ⟨body, rest⟩ := r
          -- a content ends at the next boundary or with the body
          have hrest : rest = (fromBoundary dataBoundary dev).tail := by
            unfold writeContent at hwrite
            split_ifs at hwrite
            cases hfrom : fromBoundary dataBoundary dev with
            | nil =>
              rw [hfrom] at hwrite
              cases hwrite
              rfl
            | cons l rest =>
              rw [hfrom] at hwrite
              cases hwrite
              rfl
          have hparse := parseLines_file hheader hempty htype hname hwrite
          rw [hrest] at hparse
          exact .inr ⟨rfl, .inr ⟨_, hparse⟩⟩

/-- **No more is stored than there are boundaries.** -/
lemma size_parseLines_le (hend : Ended b dev) :
    (parseLines (ascii "--" ++ b) ctx dev).size ≤ boundaries b dev := by
  induction hlength : dev.length using Nat.strong_induction_on generalizing dev with
  | _ n ih =>
    subst hlength
    obtain _ | ⟨line, lines⟩ := dev
    · exact Nat.zero_le _
    have hcount := boundaries_header ⟨[]⟩ (List.cons_ne_nil line lines) hend
    have hsuffix := parseMimeHeader_suffix (ascii "--" ++ b) ⟨[]⟩ (line :: lines)
    generalize hheader : parseMimeHeader (ascii "--" ++ b) ⟨[]⟩ (line :: lines) = r
      at hcount hsuffix
    obtain ⟨header, dev⟩ := r
    dsimp only at hcount hsuffix
    rw [List.tail_cons] at hsuffix
    have hdev : Ended b dev := hend.suffix (hsuffix.trans (List.suffix_cons line lines))
    have hlines := hsuffix.length_le
    have htail : (fromBoundary (ascii "--" ++ b) dev).tail <:+ dev :=
      (List.tail_suffix _).trans (fromBoundary_suffix _ dev)
    -- with its header an entity takes a boundary at least
    have hentity : (parseLines (ascii "--" ++ b) ctx (fromBoundary (ascii "--" ++ b) dev).tail).size
        + 1 ≤ boundaries b (line :: lines) := by
      have hsize := ih _ (by rw [List.length_cons]; have := htail.length_le; omega)
        (hdev.suffix htail) rfl
      by_cases hnil : dev = []
      · subst hnil
        obtain hcount | hcount := hcount
        · exact (Nat.add_le_add_right hsize 1).trans hcount
        · exact absurd rfl hcount.1
      · have htaken := boundaries_content hnil hdev
        omega
    obtain hskip | ⟨-, ⟨name, hfield⟩ | ⟨e, hfile⟩⟩ := parseLines_cases ctx hheader
    · rw [hskip]
      have hsize := ih _ (by rw [List.length_cons]; omega) hdev rfl
      omega
    · rw [hfield, size_addParameter]
      exact hentity
    · rw [hfile, size_addFile]
      exact hentity

end

/-! ### A content that is read as headers -/

lemma trimmed_sublist (t : QByteArray) : (trimmed t).Sublist t :=
  (List.rdropWhile_prefix isspace _).sublist.trans (List.dropWhile_sublist isspace)

lemma addLine_eq_self {l : QByteArray} (hl : COLON ∉ l) (header : TMimeHeader) :
    addLine header l = header := by
  unfold addLine
  cases hindex : indexOf l [COLON] 0 with
  | none => rfl
  | some i => exact absurd (List.mem_of_getElem? (indexOf_singleton_get hindex).2) hl

lemma colon_of_foldl_addLine {ls : List QByteArray} {header : TMimeHeader}
    (hempty : header.isEmpty = true) (h : (ls.foldl addLine header).isEmpty = false) :
    0 < ls.flatten.count COLON := by
  induction ls generalizing header with
  | nil => exact absurd (hempty.symm.trans h) (by decide)
  | cons l ls ih =>
    rw [List.flatten_cons, List.count_append]
    by_cases hl : COLON ∈ l
    · have hpos := List.count_pos_iff.mpr hl
      omega
    · rw [List.foldl_cons, addLine_eq_self hl] at h
      have hrest := ih hempty h
      omega

section

variable {b : QByteArray} {ctx : Context} {d : QByteArray} {ls tail : List QByteArray}

variable (tail) in
lemma parseMimeHeader_content (hls : ∀ l ∈ ls, isBoundary (ascii "--" ++ b) l = false)
    (hd : isBoundary (ascii "--" ++ b) d = true) (header : TMimeHeader) :
    (∃ pre rest, ls = pre ++ CRLF :: rest ∧
      parseMimeHeader (ascii "--" ++ b) header (ls ++ d :: tail) =
        (pre.foldl addLine header, rest ++ d :: tail)) ∨
    parseMimeHeader (ascii "--" ++ b) header (ls ++ d :: tail) =
      (ls.foldl addLine header, tail) := by
  induction ls generalizing header with
  | nil => exact .inr (parseMimeHeader_boundary hd)
  | cons l ls ih =>
    obtain ⟨hl, hls⟩ := List.forall_mem_cons.mp hls
    by_cases hcrlf : l = CRLF
    · subst hcrlf
      exact .inl ⟨[], ls, rfl, parseMimeHeader_crlf⟩
    · rw [List.cons_append, parseMimeHeader_line hcrlf hl]
      obtain ⟨pre, rest, rfl, hheader⟩ | hheader := ih hls (addLine header l)
      · exact .inl ⟨l :: pre, rest, rfl, hheader⟩
      · exact .inr hheader

variable (ctx b tail) in
/-- What comes of a content with `n` colons that is read as headers: a place is lost; or a form
field is stored that has fewer colons, or a file. -/
inductive Strayed (n : ℕ) (found : TMultipartFormData) : Prop where
  | lost (h : found.size ≤ boundaries b tail)
  | field (p : Text × Text) (hfewer : p.2.count COLON.toUInt16 < n)
    (h : found = (parseLines (ascii "--" ++ b) ctx tail).addParameter p)
  | file (e : TMimeEntity) (h : found = (parseLines (ascii "--" ++ b) ctx tail).addFile e)

lemma Strayed.mono {n m : ℕ} {found : TMultipartFormData} (h : Strayed b ctx tail n found)
    (hnm : n ≤ m) : Strayed b ctx tail m found := by
  cases h with
  | lost h => exact .lost h
  | field p hfewer h => exact .field p (hfewer.trans_le hnm) h
  | file e h => exact .file e h

variable (ctx) in
lemma size_behind_le (hend : Ended b tail) (hne : tail ≠ []) :
    (parseLines (ascii "--" ++ b) ctx (fromBoundary (ascii "--" ++ b) tail).tail).size + 1 ≤
      boundaries b tail := by
  have hsuffix : (fromBoundary (ascii "--" ++ b) tail).tail <:+ tail :=
    (List.tail_suffix _).trans (fromBoundary_suffix _ tail)
  rw [← boundaries_content hne hend]
  exact Nat.succ_le_succ (size_parseLines_le (hend.suffix hsuffix))

lemma count_toUnicode (hcodec : ctx.toUnicode = Utf8.decode) (t : QByteArray) :
    (ctx.toUnicode t).count COLON.toUInt16 = t.count COLON := by
  rw [hcodec, Utf8.count_decode (by decide)]

lemma strayed_boundary (hcodec : ctx.toUnicode = Utf8.decode) {line : QByteArray}
    {lines : List QByteArray}
    (hheader : parseMimeHeader (ascii "--" ++ b) ⟨[]⟩ (line :: lines) =
      (ls.foldl addLine ⟨[]⟩, tail)) (hend : Ended b tail) :
    Strayed b ctx tail (ls.flatten.count COLON)
      (parseLines (ascii "--" ++ b) ctx (line :: lines)) := by
  obtain hskip | ⟨hne, hentity⟩ := parseLines_cases ctx hheader
  · rw [hskip]
    exact .lost (size_parseLines_le hend)
  by_cases hnil : tail = []
  · subst hnil
    obtain ⟨name, hfield⟩ | ⟨e, hfile⟩ := hentity
    · refine .field _ ?_ hfield
      dsimp only
      rw [count_toUnicode hcodec]
      exact colon_of_foldl_addLine rfl hne
    · exact .file e hfile
  · have hle := size_behind_le ctx hend hnil
    obtain ⟨name, hfield⟩ | ⟨e, hfile⟩ := hentity
    · rw [hfield]
      exact .lost ((size_addParameter _ _).trans_le hle)
    · rw [hfile]
      exact .lost ((size_addFile _ _).trans_le hle)

/-- **A content read as headers**: each empty line in it ends a header, or none does. -/
lemma strayed_content (hcodec : ctx.toUnicode = Utf8.decode)
    (hls : ∀ l ∈ ls, isBoundary (ascii "--" ++ b) l = false)
    (hd : isBoundary (ascii "--" ++ b) d = true) (hend : Ended b tail) :
    Strayed b ctx tail (ls.flatten.count COLON)
      (parseLines (ascii "--" ++ b) ctx (ls ++ d :: tail)) := by
  induction hlength : ls.length using Nat.strong_induction_on generalizing ls with
  | _ n ih =>
    subst hlength
    obtain ⟨line, lines, hlines⟩ : ∃ line lines, ls ++ d :: tail = line :: lines :=
      List.exists_cons_of_ne_nil (by simp)
    obtain ⟨pre, rest, rfl, hheader⟩ | hheader := parseMimeHeader_content tail hls hd ⟨[]⟩
    · have hrest : ∀ l ∈ rest, isBoundary (ascii "--" ++ b) l = false := fun l hl =>
        hls l (by simp [hl])
      have hflat : (pre ++ CRLF :: rest).flatten.count COLON =
          pre.flatten.count COLON + rest.flatten.count COLON := by
        rw [List.flatten_append, List.flatten_cons, List.count_append, List.count_append,
          show CRLF.count COLON = 0 by decide, Nat.zero_add]
      rw [hlines] at hheader ⊢
      obtain hskip | ⟨hne, ⟨name, hfield⟩ | ⟨e, hfile⟩⟩ := parseLines_cases ctx hheader
      · -- nothing is stored, and the next header begins
        rw [hskip]
        have hstrayed := ih rest.length (by simp; omega) hrest rfl
        exact hstrayed.mono (by omega)
      · have hpre := colon_of_foldl_addLine rfl hne
        have hcontent := (trimmed_sublist rest.flatten).count_le COLON
        rw [content_append hrest hd, fromBoundary_append hrest hd] at hfield
        refine .field _ ?_ hfield
        dsimp only
        rw [count_toUnicode hcodec]
        omega
      · rw [fromBoundary_append hrest hd] at hfile
        exact .file e hfile
    · rw [hlines] at hheader ⊢
      exact strayed_boundary hcodec hheader hend

end

/-! ### Round trips -/

section

variable {b : QByteArray} {ctx : Context} {p : Part} {ps : List Part}

lemma fields_field (name content : Text) (t : Option QByteArray) (ps : List Part) :
    (Part.field name content t :: ps).filterMap Part.field? =
      (name, content) :: ps.filterMap Part.field? := rfl

lemma fields_file (name fileName t content : QByteArray) (ps : List Part) :
    (Part.file name fileName t content :: ps).filterMap Part.field? =
      ps.filterMap Part.field? := rfl

lemma files_field (name content : Text) (t : Option QByteArray) (ps : List Part) :
    (Part.field name content t :: ps).filterMap Part.file? = ps.filterMap Part.file? := rfl

lemma files_file (name fileName t content : QByteArray) (ps : List Part) :
    (Part.file name fileName t content :: ps).filterMap Part.file? =
      content :: ps.filterMap Part.file? := rfl

lemma length_fields_add_files (ps : List Part) :
    (ps.filterMap Part.field?).length + (ps.filterMap Part.file?).length = ps.length := by
  induction ps with
  | nil => rfl
  | cons p ps ih =>
    cases p with
    | field name content t =>
      rw [fields_field, files_field, List.length_cons, List.length_cons]
      omega
    | file name fileName t content =>
      rw [fields_file, files_file, List.length_cons, List.length_cons]
      omega

lemma ended_after (ps : List Part) : Ended b (after b ps) := by
  induction ps with
  | nil => exact fun line hline => absurd hline (by simp [after])
  | cons p ps ih =>
    have hlast : Ended b (delimiter b ps :: after b ps) := by
      intro line hline
      cases hps : after b ps with
      | nil =>
        rw [hps] at hline
        obtain rfl := Option.some.inj hline
        exact isBoundary_delimiter ps
      | cons l ls =>
        rw [hps, List.getLast?_cons_cons, ← hps] at hline
        exact ih line hline
    intro line hline
    refine hlast line ?_
    rw [after] at hline
    rwa [List.getLast?_append_of_ne_nil _ (by simp), ← List.cons_append,
      List.getLast?_append_of_ne_nil _ (by simp)] at hline

lemma boundaries_after (hps : ∀ p ∈ ps, p.Valid ctx (ascii "--" ++ b)) :
    boundaries b (after b ps) = ps.length := by
  induction ps with
  | nil => rfl
  | cons p ps ih =>
    obtain ⟨hp, hps⟩ := List.forall_mem_cons.mp hps
    have hheaders : p.headers.countP (isBoundary (ascii "--" ++ b)) = 0 :=
      List.countP_eq_zero.mpr fun l hl => by simp [(headers_spec hp l hl).2.2]
    have hcontent : (Lines.cut LF (p.content ++ CRLF)).countP (isBoundary (ascii "--" ++ b)) = 0 :=
      List.countP_eq_zero.mpr fun l hl => by simp [hp.content l hl]
    rw [after, boundaries, List.countP_append, List.countP_cons_of_neg (by simp [isBoundary_crlf]),
      List.countP_append, List.countP_cons_of_pos (isBoundary_delimiter ps), hheaders, hcontent,
      List.length_cons, ← ih hps, boundaries]
    omega

variable (ps) in
lemma strayed_typed (hcodec : ctx.toUnicode = Utf8.decode) {name content : Text} {t : QByteArray}
    (hempty : ctx.fromUtf8 [] = "")
    (hp : (Part.field name content (some t)).Valid ctx (ascii "--" ++ b)) :
    Strayed b ctx (after b ps) (content.count COLON.toUInt16)
      (parseLines (ascii "--" ++ b) ctx (after b (.field name content (some t) :: ps))) := by
  have hlines : ∀ l ∈ Lines.cut LF (Utf8.encode content ++ CRLF),
      isBoundary (ascii "--" ++ b) l = false := hp.content
  have hcount : (Lines.cut LF (Utf8.encode content ++ CRLF)).flatten.count COLON =
      content.count COLON.toUInt16 := by
    rw [Lines.flatten_cut, List.count_append, show CRLF.count COLON = 0 by decide, Nat.add_zero,
      Utf8.count_encode (hp.text _ rfl).2 (by decide)]
  rw [parse_typed hempty hp, ← hcount]
  exact strayed_content hcodec hlines (isBoundary_delimiter ps) (ended_after ps)

lemma files_le (hopens : ctx.opens = true) (hcodec : ctx.toUnicode = Utf8.decode)
    (hempty : ctx.fromUtf8 [] = "")
    (hps : ∀ p ∈ ps, p.Valid ctx (ascii "--" ++ b))
    (hsize : (parseLines (ascii "--" ++ b) ctx (after b ps)).size = ps.length) :
    (ps.filterMap Part.file?).length ≤
      (parseLines (ascii "--" ++ b) ctx (after b ps)).uploadedFiles.length := by
  induction ps with
  | nil => exact Nat.zero_le _
  | cons p ps ih =>
    obtain ⟨hp, hrest⟩ := List.forall_mem_cons.mp hps
    rw [List.length_cons] at hsize
    cases p with
    | field name content contentType =>
      rw [files_field]
      cases contentType with
      | none =>
        rw [parse_field ps hp, size_addParameter] at hsize
        rw [parse_field ps hp]
        exact ih hrest (Nat.add_right_cancel hsize)
      | some t =>
        cases strayed_typed ps hcodec hempty hp with
        | lost hle =>
          -- fewer would be stored than there are parts
          rw [boundaries_after hrest] at hle
          omega
        | field p _ hparse =>
          rw [hparse, size_addParameter] at hsize
          rw [hparse]
          exact ih hrest (Nat.add_right_cancel hsize)
        | file e hparse =>
          rw [hparse, size_addFile] at hsize
          rw [hparse]
          exact (ih hrest (Nat.add_right_cancel hsize)).trans (Nat.le_succ _)
    | file name fileName t content =>
      rw [parse_file ps hopens hp, size_addFile] at hsize
      rw [parse_file ps hopens hp, files_file]
      exact Nat.succ_le_succ (ih hrest (Nat.add_right_cancel hsize))

/-- What the lines behind the first boundary should give. -/
structure ReadBack (ctx : Context) (b : QByteArray) (ps : List Part) : Prop where
  fields : (parseLines (ascii "--" ++ b) ctx (after b ps)).postParameters =
    ps.filterMap Part.field?
  files : (parseLines (ascii "--" ++ b) ctx (after b ps)).uploadedFiles.map TMimeEntity.body =
    ps.filterMap Part.file?

lemma roundTrip_iff_readBack (hb : LF ∉ b) (hps : ∀ p ∈ ps, p.Valid ctx (ascii "--" ++ b)) :
    RoundTrip ctx (ascii "--" ++ b) ps ↔ ReadBack ctx b ps := by
  have hparse := parse_encode hb hps
  exact ⟨fun h => ⟨hparse ▸ h.fields, hparse ▸ h.files⟩,
    fun h => ⟨hparse.symm ▸ h.fields, hparse.symm ▸ h.files⟩⟩

lemma ReadBack.size (h : ReadBack ctx b ps) :
    (parseLines (ascii "--" ++ b) ctx (after b ps)).size = ps.length := by
  rw [TMultipartFormData.size, h.fields, ← length_fields_add_files, ← h.files, List.length_map]

lemma trimmed_eq_of_count {t : QByteArray} (h : ∀ c, isspace c → (trimmed t).count c = t.count c) :
    trimmed t = t := by
  have hfront : t.takeWhile isspace ++ t.dropWhile isspace = t := List.takeWhile_append_dropWhile
  have hback : trimmed t ++ (t.dropWhile isspace).rtakeWhile isspace = t.dropWhile isspace :=
    List.rdropWhile_append_rtakeWhile
  have hnone : ∀ w : QByteArray, (∀ c ∈ w, isspace c) → (∀ c, isspace c → w.count c = 0) → w = [] :=
    fun w hw hcount => List.eq_nil_iff_forall_not_mem.mpr fun c hc =>
      List.count_eq_zero.mp (hcount c (hw c hc)) hc
  have hcount : ∀ c, t.count c = (t.takeWhile isspace).count c + ((trimmed t).count c +
      ((t.dropWhile isspace).rtakeWhile isspace).count c) := fun c => by
    conv_lhs => rw [← hfront, ← hback]
    rw [List.count_append, List.count_append]
  have hleft := hnone (t.takeWhile isspace) (fun c hc => List.mem_takeWhile_imp hc) fun c hc => by
    have := hcount c
    have := h c hc
    omega
  have hright := hnone ((t.dropWhile isspace).rtakeWhile isspace)
    (fun c hc => List.mem_rtakeWhile_imp hc) fun c hc => by
      have := hcount c
      have := h c hc
      omega
  rw [hright, List.append_nil] at hback
  rw [hleft, List.nil_append] at hfront
  exact hback.trans hfront

lemma toNat_lt_of_isspace {c : UInt8} (h : isspace c) : c.toNat < 128 := by
  simp only [isspace, Bool.or_eq_true, Bool.and_eq_true, decide_eq_true_eq,
    UInt8.le_iff_toNat_le] at h
  rcases h with rfl | h
  · decide
  · exact h.2.trans_lt (by decide)

/-- **The texts of a form field** are read back when none of it is white space at an end of the
content, or a byte order mark. -/
lemma toUnicode_iff (hcodec : ctx.toUnicode = Utf8.decode) {name content : Text}
    (hname : Utf8.WellFormed name) (hcontent : Utf8.WellFormed content) :
    (ctx.toUnicode (Utf8.encode name), ctx.toUnicode (trimmed (Utf8.encode content))) =
        (name, content) ↔
      trimmed (Utf8.encode content) = Utf8.encode content ∧
        name.head? ≠ some 0xFEFF ∧ content.head? ≠ some 0xFEFF := by
  rw [hcodec, Utf8.decode_encode hname, Prod.mk.injEq, Utf8.dropMark_eq_iff]
  constructor
  · rintro ⟨hmark, hread⟩
    have htrimmed : trimmed (Utf8.encode content) = Utf8.encode content := by
      refine trimmed_eq_of_count fun c hc => ?_
      have hc := toNat_lt_of_isspace hc
      rw [← Utf8.count_decode hc, hread, Utf8.count_encode hcontent hc]
    rw [htrimmed, Utf8.decode_encode hcontent, Utf8.dropMark_eq_iff] at hread
    exact ⟨htrimmed, hmark, hread⟩
  · rintro ⟨htrimmed, hmark, hcontentMark⟩
    rw [htrimmed, Utf8.decode_encode hcontent, Utf8.dropMark_eq_iff]
    exact ⟨hmark, hcontentMark⟩

lemma readBack_field (hcodec : ctx.toUnicode = Utf8.decode) {name content : Text}
    (hp : (Part.field name content none).Valid ctx (ascii "--" ++ b)) :
    ReadBack ctx b (.field name content none :: ps) ↔
      (Part.field name content none).Plain ∧ ReadBack ctx b ps := by
  have hparse := parse_field ps hp
  have htext := hp.text _ rfl
  rw [Part.Plain, and_iff_right rfl, ← toUnicode_iff hcodec htext.1 htext.2]
  constructor
  · rintro ⟨hfields, hfiles⟩
    rw [hparse] at hfields hfiles
    obtain ⟨hfirst, hfields⟩ := List.cons.inj (hfields.trans (fields_field _ _ _ _))
    exact ⟨hfirst, hfields, hfiles⟩
  · rintro ⟨hread, hfields, hfiles⟩
    rw [hread] at hparse
    refine ⟨?_, ?_⟩
    · rw [hparse, fields_field, ← hfields]
      rfl
    · rw [hparse, files_field, ← hfiles]
      rfl

lemma readBack_file {name fileName t content : QByteArray} (hopens : ctx.opens = true)
    (hp : (Part.file name fileName t content).Valid ctx (ascii "--" ++ b)) :
    ReadBack ctx b (.file name fileName t content :: ps) ↔ ReadBack ctx b ps := by
  have hparse := parse_file ps hopens hp
  constructor
  · rintro ⟨hfields, hfiles⟩
    rw [hparse] at hfields hfiles
    exact ⟨hfields, (List.cons.inj (hfiles.trans (files_file _ _ _ _ _))).2⟩
  · rintro ⟨hfields, hfiles⟩
    refine ⟨?_, ?_⟩
    · rw [hparse, fields_file, ← hfields]
      rfl
    · rw [hparse, files_file, ← hfiles]
      rfl

lemma not_readBack_typed {name content : Text} {t : QByteArray} (hopens : ctx.opens = true)
    (hcodec : ctx.toUnicode = Utf8.decode) (hempty : ctx.fromUtf8 [] = "")
    (hp : (Part.field name content (some t)).Valid ctx (ascii "--" ++ b))
    (hps : ∀ p ∈ ps, p.Valid ctx (ascii "--" ++ b)) :
    ¬ ReadBack ctx b (.field name content (some t) :: ps) := by
  intro h
  have hsize := h.size
  rw [List.length_cons] at hsize
  cases strayed_typed ps hcodec hempty hp with
  | lost hle =>
    rw [boundaries_after hps] at hle
    omega
  | field p hfewer hparse =>
    -- another content is stored in its place
    have hfields := h.fields
    rw [hparse] at hfields
    obtain ⟨rfl, -⟩ := List.cons.inj (hfields.trans (fields_field _ _ _ _))
    exact absurd hfewer (Nat.lt_irrefl _)
  | file e hparse =>
    -- a file too many is stored
    have hfiles := congrArg List.length h.files
    rw [hparse, size_addFile] at hsize
    rw [hparse, files_field, List.length_map] at hfiles
    have hle := files_le hopens hcodec hempty hps (Nat.add_right_cancel hsize)
    change (parseLines (ascii "--" ++ b) ctx (after b ps)).uploadedFiles.length + 1 = _ at hfiles
    omega

/-- **Multipart bodies**: the form fields and files of a body are found exactly when no form field
has a content type, white space at the ends of its content, or a byte order mark in front. -/
theorem multipart_iff (hopens : ctx.opens = true) (hcodec : ctx.toUnicode = Utf8.decode)
    (hempty : ctx.fromUtf8 [] = "") (hb : LF ∉ b)
    (hps : ∀ p ∈ ps, p.Valid ctx (ascii "--" ++ b)) :
    RoundTrip ctx (ascii "--" ++ b) ps ↔ ∀ p ∈ ps, p.Plain := by
  rw [roundTrip_iff_readBack hb hps]
  induction ps with
  | nil => exact ⟨fun _ => List.forall_mem_nil _, fun _ => ⟨rfl, rfl⟩⟩
  | cons p ps ih =>
    obtain ⟨hp, hrest⟩ := List.forall_mem_cons.mp hps
    rw [List.forall_mem_cons, ← ih hrest]
    cases p with
    | field name content contentType =>
      cases contentType with
      | none => exact readBack_field hcodec hp
      | some t =>
        exact iff_of_false (not_readBack_typed hopens hcodec hempty hp hrest) fun h => nomatch h.1.1
    | file name fileName t content =>
      rw [readBack_file hopens hp]
      exact (and_iff_right trivial).symm

end

/-! ### Two bodies -/

/-- For a file name of ASCII characters this is what `QString::fromUtf8` gives. -/
def utf8Context : Context :=
  ⟨fun b => String.ofList (b.map fun c => Char.ofNat c.toNat), Utf8.decode, true⟩

/-- A form field, and a file that holds an empty line and ends with a line end. -/
def upload : List Part :=
  [.field (fromAscii (ascii "a\"b")) (0xE9 :: fromAscii (ascii "x: y")) none,
    .file (ascii "f") (ascii "n.txt") (ascii "text/plain") (ascii "1\r\n\r\n--\r\n")]

lemma valid_upload : ∀ p ∈ upload, p.Valid utf8Context (ascii "--" ++ ascii "X") := by
  refine List.forall_mem_cons.mpr ⟨⟨by decide, fun f hf => ?_, fun t ht => ?_, by decide, ?_⟩,
    List.forall_mem_singleton.mpr ⟨by decide, fun f hf => ?_, fun t ht => ?_, by decide, ?_⟩⟩
  · cases hf
  · cases ht
  · rintro t ⟨⟩
    exact ⟨Utf8.wellFormed_of_ascii (by decide), ⟨[0xE9, 120, 58, 32, 121], by decide, rfl⟩⟩
  · cases hf
    decide
  · cases ht
    decide
  · exact fun t ht => nomatch ht

theorem multipart_iff_upload : RoundTrip utf8Context (ascii "--" ++ ascii "X") upload :=
  (multipart_iff rfl rfl rfl (by decide) valid_upload).mpr
    (List.forall_mem_cons.mpr ⟨⟨rfl, by decide, by decide, by decide⟩,
      List.forall_mem_singleton.mpr trivial⟩)

/-- A form field that begins with a space, one with a content type, and one that begins with a byte
order mark. -/
def spoiled : List Part :=
  [.field (fromAscii (ascii "a")) (fromAscii (ascii " x")) none,
    .field (fromAscii (ascii "b")) (fromAscii (ascii "y")) (some (ascii "text/plain")),
    .field (fromAscii (ascii "c")) (0xFEFF :: fromAscii (ascii "z")) none]

lemma valid_spoiled : ∀ p ∈ spoiled, p.Valid utf8Context (ascii "--" ++ ascii "X") := by
  refine List.forall_mem_cons.mpr ⟨⟨by decide, fun f hf => ?_, fun t ht => ?_, by decide, ?_⟩,
    List.forall_mem_cons.mpr ⟨⟨by decide, fun f hf => ?_, fun t ht => ?_, by decide, ?_⟩,
    List.forall_mem_singleton.mpr ⟨by decide, fun f hf => ?_, fun t ht => ?_, by decide, ?_⟩⟩⟩
  · cases hf
  · cases ht
  · rintro t ⟨⟩
    exact ⟨Utf8.wellFormed_of_ascii (by decide), Utf8.wellFormed_of_ascii (by decide)⟩
  · cases hf
  · cases ht
    decide
  · rintro t ⟨⟩
    exact ⟨Utf8.wellFormed_of_ascii (by decide), Utf8.wellFormed_of_ascii (by decide)⟩
  · cases hf
  · cases ht
  · rintro t ⟨⟩
    exact ⟨Utf8.wellFormed_of_ascii (by decide), ⟨[0xFEFF, 122], by decide, rfl⟩⟩

/-- The space is lost, the second form field, and the byte order mark. -/
theorem not_roundTrip_spoiled :
    (∀ p ∈ spoiled, p.Valid utf8Context (ascii "--" ++ ascii "X")) ∧
    (parse (ascii "--" ++ ascii "X") utf8Context
      (encode (ascii "--" ++ ascii "X") spoiled)).postParameters =
        [(fromAscii (ascii "a"), fromAscii (ascii "x")),
          (fromAscii (ascii "c"), fromAscii (ascii "z"))] ∧
    ¬ RoundTrip utf8Context (ascii "--" ++ ascii "X") spoiled := by
  have hparse : (parse (ascii "--" ++ ascii "X") utf8Context
      (encode (ascii "--" ++ ascii "X") spoiled)).postParameters =
        [(fromAscii (ascii "a"), fromAscii (ascii "x")),
          (fromAscii (ascii "c"), fromAscii (ascii "z"))] := by
    decide +kernel
  refine ⟨valid_spoiled, hparse, fun h => ?_⟩
  exact absurd (hparse.symm.trans h.fields) (by decide)

end TreeFrog.MultipartRoundTrip
