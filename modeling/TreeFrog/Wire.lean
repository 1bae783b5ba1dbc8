import TreeFrog.RequestHeader

/-!
Requests as a client sends them, and how one is read.

A `Request` carries what makes it well formed. Its text is a request line, a line for each
field, an empty line, and a body as long as its own fields declare.
-/

namespace TreeFrog.Wire

open TreeFrog.Bytes TreeFrog.Search TreeFrog.MessageHeader TreeFrog.RequestHeader

/-- A header line. One that began with a blank would continue the line before it. -/
structure Field where
  key : QByteArray
  value : QByteArray
  key_clean : COLON ∉ key ∧ CR ∉ key ∧ LF ∉ key
  key_head : key.head? ≠ some SP ∧ key.head? ≠ some HT
  value_clean : CR ∉ value ∧ LF ∉ value
  deriving DecidableEq

namespace Field

def line (f : Field) : QByteArray := f.key ++ COLON :: f.value

/-- The field without the white space around its name and its value. -/
def pair (f : Field) : RawHeaderPair := (trimmed f.key, some (trimmed f.value))

lemma line_ne_nil (f : Field) : f.line ≠ [] := by simp [line]

lemma CR_not_mem_line (f : Field) : CR ∉ f.line := by
  unfold line
  rw [List.mem_append, List.mem_cons]
  rintro (h | h | h)
  · exact f.key_clean.2.1 h
  · exact absurd h (by decide)
  · exact f.value_clean.1 h

lemma line_head (f : Field) (t : QByteArray) :
    (f.line ++ t).head? ≠ some SP ∧ (f.line ++ t).head? ≠ some HT := by
  have h := f.key_head
  unfold line
  cases hk : f.key with
  | nil => simp only [List.nil_append, List.cons_append, List.head?_cons]; decide
  | cons c k => rw [hk] at h; simpa using h

end Field

structure Request where
  method : QByteArray
  path : QByteArray
  majVersion : Fin 10
  minVersion : Fin 10
  fields : List Field
  body : QByteArray
  method_ne : method ≠ []
  method_clean : method.any isspace = false
  path_clean : SP ∉ path ∧ CR ∉ path ∧ LF ∉ path
  body_length : body.length = (TInternetMessageHeader.mk (fields.map Field.pair)).contentLength
  deriving DecidableEq

def digit (d : Fin 10) : UInt8 := UInt8.ofNat (48 + d)

def dot : UInt8 := 46

/-- Lines, each with its line end. -/
def lines (ls : List QByteArray) : QByteArray := ls.flatMap (· ++ CRLF)

@[simp] lemma lines_nil : lines [] = [] := rfl
@[simp] lemma lines_cons (l : QByteArray) (ls : List QByteArray) :
    lines (l :: ls) = l ++ (CRLF ++ lines ls) := by simp [lines]

namespace Request

def requestLine (r : Request) : QByteArray :=
  r.method ++ SP :: (r.path ++ SP :: (ascii "HTTP/" ++ [digit r.majVersion, dot,
    digit r.minVersion]))

def fieldLines (r : Request) : List QByteArray := r.fields.map Field.line

/-- The text up to and with the empty line. -/
def head (r : Request) : QByteArray := lines (r.requestLine :: r.fieldLines) ++ CRLF

def bytes (r : Request) : QByteArray := r.head ++ r.body

/-- The header that is to be read. -/
def header (r : Request) : THttpRequestHeader where
  headerPairList := r.fields.map Field.pair
  majVersion := r.majVersion
  minVersion := r.minVersion
  reqMethod := r.method
  reqUri := r.path

@[simp] lemma header_contentLength (r : Request) : r.header.contentLength = r.body.length :=
  r.body_length.symm

end Request

/-! ### The request line -/

section
variable (r : Request)

lemma digit_isspace (d : Fin 10) : isspace (digit d) = false := by revert d; decide

lemma toInt_digit (d : Fin 10) : toInt [digit d] = d := by revert d; decide

lemma isspace_of_eq {c : UInt8} (h : c = SP ∨ c = CR ∨ c = LF) : isspace c = true := by
  rcases h with rfl | rfl | rfl <;> decide

lemma method_not_mem {c : UInt8} (h : isspace c = true) : c ∉ r.method := fun hc =>
  List.any_eq_false.mp r.method_clean c hc h

lemma requestLine_ne_nil : r.requestLine ≠ [] := by simp [Request.requestLine, r.method_ne]

lemma CR_not_mem_requestLine : CR ∉ r.requestLine := by
  have h1 := method_not_mem r (isspace_of_eq (c := CR) (by simp))
  have h2 : ∀ d, CR ≠ digit d := by decide
  simp only [Request.requestLine, List.mem_append, List.mem_cons, List.not_mem_nil]
  rintro (h | h | h | h | h | h | h | h | h)
  all_goals first
    | exact h1 h
    | exact r.path_clean.2.1 h
    | exact h2 _ h
    | exact absurd h (by decide)

lemma LF_not_mem_requestLine : LF ∉ r.requestLine := by
  have h1 := method_not_mem r (isspace_of_eq (c := LF) (by simp))
  have h2 : ∀ d, LF ≠ digit d := by decide
  simp only [Request.requestLine, List.mem_append, List.mem_cons, List.not_mem_nil]
  rintro (h | h | h | h | h | h | h | h | h)
  all_goals first
    | exact h1 h
    | exact r.path_clean.2.2 h
    | exact h2 _ h
    | exact absurd h (by decide)

lemma trimmed_requestLine : trimmed r.requestLine = r.requestLine := by
  refine trimmed_of_ends (fun c hc => ?_) (fun c hc => ?_)
  · rw [Request.requestLine, List.head?_append_of_ne_nil _ r.method_ne] at hc
    exact Bool.eq_false_iff.mpr (List.any_eq_false.mp r.method_clean c (List.mem_of_head? hc))
  · have : r.requestLine.getLast? = some (digit r.minVersion) := by
      have hsplit : r.requestLine = (r.method ++ SP :: (r.path ++ SP :: (ascii "HTTP/" ++
          [digit r.majVersion, dot]))) ++ [digit r.minVersion] := by simp [Request.requestLine]
      rw [hsplit, List.getLast?_concat]
    rw [this, Option.some.injEq] at hc
    rw [← hc]; exact digit_isspace _

/-- The last part of a request line. -/
def Request.version (r : Request) : QByteArray :=
  ascii "HTTP/" ++ [digit r.majVersion, dot, digit r.minVersion]

lemma requestLine_eq (r : Request) :
    r.requestLine = r.method ++ SP :: (r.path ++ SP :: r.version) := rfl

lemma indexOf_path (r : Request) :
    indexOf r.requestLine [SP] (r.method.length + 1) =
      some (r.method.length + 1 + r.path.length) := by
  have := indexOf_singleton (a := r.method ++ [SP]) (t := r.version) r.path_clean.1
  rw [List.length_append, List.length_singleton] at this
  rw [requestLine_eq, ← this]; simp

lemma indexOf_version (r : Request) :
    indexOf r.requestLine (ascii "HTTP/") (r.method.length + 1 + r.path.length) =
      some (r.method.length + 1 + r.path.length + 1) := by
  have hs : search (ascii "HTTP/") (SP :: r.version) = some 1 := by
    rw [Request.version]
    generalize digit r.majVersion = d
    generalize digit r.minVersion = d'
    have h0 : ¬ ascii "HTTP/" <+: SP :: (ascii "HTTP/" ++ [d, dot, d']) := by
      rintro ⟨t, ht⟩
      exact absurd (List.cons.inj ht).1 (by decide)
    rw [search_cons_of_not h0, search_eq_zero (List.prefix_append _ _)]
    rfl
  have hfront := indexOf_append_right (r.method ++ SP :: r.path) (SP :: r.version) (ascii "HTTP/") 0
  have hlen : (r.method ++ SP :: r.path).length + 0 = r.method.length + 1 + r.path.length := by
    simp; omega
  rw [indexOf_zero, hs, hlen] at hfront
  have hline : r.requestLine = r.method ++ SP :: r.path ++ SP :: r.version := by
    simp [requestLine_eq]
  rw [hline, hfront]
  simp; omega

lemma drop_version (r : Request) (n : ℕ) :
    r.requestLine.drop (r.method.length + 1 + r.path.length + 1 + n) = r.version.drop n := by
  have hline : r.requestLine = (r.method ++ SP :: (r.path ++ [SP])) ++ r.version := by
    simp [requestLine_eq]
  have hlen : r.method.length + 1 + r.path.length + 1 =
      (r.method ++ SP :: (r.path ++ [SP])).length := by
    simp; omega
  rw [hline, ← List.drop_drop, hlen, List.drop_left]

lemma readLine_requestLine (h : THttpRequestHeader) :
    h.readLine r.requestLine =
      { h with
        reqMethod := r.method, reqUri := r.path
        majVersion := r.majVersion, minVersion := r.minVersion } := by
  have hmlen : r.method.length ≠ 0 := by simpa using r.method_ne
  have hi : indexOf r.requestLine [SP] 0 = some r.method.length := by
    rw [indexOf_zero, requestLine_eq, search_singleton (method_not_mem r (by decide))]
  have hlen : r.requestLine.length = r.method.length + 1 + r.path.length + 1 + 8 := by
    rw [requestLine_eq]; simp [Request.version, ascii]; omega
  have hmaj : r.version.drop 5 = [digit r.majVersion, dot, digit r.minVersion] := rfl
  have hmin : r.version.drop 7 = [digit r.minVersion] := rfl
  have hmethod : r.requestLine.take r.method.length = r.method := by
    rw [requestLine_eq, List.take_left]
  have hpath : (r.requestLine.drop (r.method.length + 1)).take
      (r.method.length + 1 + r.path.length - (r.method.length + 1)) = r.path := by
    rw [requestLine_eq, ← List.drop_drop, List.drop_left, List.drop_one, List.tail_cons,
      show r.method.length + 1 + r.path.length - (r.method.length + 1) = r.path.length by omega,
      List.take_left]
  unfold THttpRequestHeader.readLine
  rw [hi]
  simp only [if_neg hmlen, indexOf_path, indexOf_version, drop_version, hmaj, hmin, hmethod, hpath]
  rw [if_pos (by omega)]
  simp only [List.take_succ_cons, List.take_zero, toInt_digit]

/-! ### The header block -/

/-- **Where the empty line is**: behind the last of a list of non-empty lines. -/
lemma search_lines (ls : List QByteArray) (hne : ls ≠ [])
    (hls : ∀ l ∈ ls, l ≠ [] ∧ CR ∉ l) (t : QByteArray) :
    search CRLFCRLF (lines ls ++ (CRLF ++ t)) = some ((lines ls).length - 2) := by
  induction ls with
  | nil => exact absurd rfl hne
  | cons l ls ih =>
    obtain ⟨hl, hcr⟩ := hls l (by simp)
    rw [lines_cons, List.append_assoc, CRLFCRLF, search_skip hcr]
    cases ls with
    | nil =>
      have h0 : search [CR, LF, CR, LF] (CRLF ++ (CRLF ++ t)) = some 0 := search_eq_zero ⟨t, rfl⟩
      rw [lines_nil, List.append_nil, h0]
      simp [CRLF]
    | cons l' ls =>
      have ih := ih (by simp) fun x hx => hls x (List.mem_cons_of_mem _ hx)
      obtain ⟨hl', hcr'⟩ := hls l' (by simp)
      -- the next line does not begin with a carriage return
      set u := lines (l' :: ls) ++ (CRLF ++ t) with hu
      have h1 : ¬ CRLFCRLF <+: CR :: LF :: u := by
        rintro ⟨x, hx⟩
        have hx2 := (List.cons.inj (List.cons.inj hx).2).2
        cases l' with
        | nil => exact hl' rfl
        | cons c l' =>
          rw [hu, lines_cons, List.cons_append, List.cons_append] at hx2
          exact hcr' (by rw [← (List.cons.inj hx2).1]; exact List.mem_cons_self ..)
      have h2 : ¬ CRLFCRLF <+: LF :: u := by
        rintro ⟨x, hx⟩
        exact absurd (List.cons.inj hx).1 (by decide)
      have hlen : 2 ≤ (lines (l' :: ls)).length := by simp [CRLF]; omega
      rw [show CRLF ++ lines (l' :: ls) ++ (CRLF ++ t) = CR :: LF :: u from rfl]
      change (search CRLFCRLF _).map _ = _
      rw [search_cons_of_not h1, search_cons_of_not h2, ih]
      simp [CRLF]
      omega

lemma fieldLines_ok (f : QByteArray) (hf : f ∈ r.fieldLines) : f ≠ [] ∧ CR ∉ f := by
  obtain ⟨f, -, rfl⟩ := List.mem_map.mp hf
  exact ⟨f.line_ne_nil, f.CR_not_mem_line⟩

lemma search_head (t : QByteArray) : search CRLFCRLF (r.head ++ t) = some (r.head.length - 4) := by
  have h := search_lines (r.requestLine :: r.fieldLines) (by simp)
    (fun l hl => by
      rcases List.mem_cons.mp hl with rfl | hl
      · exact ⟨requestLine_ne_nil r, CR_not_mem_requestLine r⟩
      · exact fieldLines_ok r l hl) t
  unfold Request.head
  rw [List.append_assoc, h, List.length_append]
  rfl

lemma head_length_pos : 4 < r.head.length := by
  have := List.length_pos_iff.mpr (requestLine_ne_nil r)
  simp [Request.head, CRLF]; omega

lemma head_length_le : r.head.length ≤ r.bytes.length := by
  rw [Request.bytes, List.length_append]
  omega

/-- **The fields of a block of header lines**, read one line after the other. -/
lemma parseLoop_lines (fs : List Field) (a t : QByteArray) (ps : List RawHeaderPair) {fuel : ℕ}
    (hf : fs.length ≤ fuel) :
    parseLoop (a ++ (lines (fs.map Field.line) ++ (CRLF ++ t)))
        (a.length + (lines (fs.map Field.line)).length - 2) fuel a.length ps =
      ps ++ fs.map Field.pair := by
  induction fs generalizing a ps fuel with
  | nil =>
    rw [parseLoop_done (by simp)]
    simp
  | cons f fs ih =>
    cases fuel with
    | zero => simp at hf
    | succ fuel =>
      set rest := lines (fs.map Field.line) ++ (CRLF ++ t) with hrest
      have htext : a ++ (lines ((f :: fs).map Field.line) ++ (CRLF ++ t)) =
          a ++ (f.key ++ COLON :: ((f.value ++ [CR]) ++ LF :: rest)) := by
        simp [Field.line, CRLF, hrest]
      have hlen : (lines ((f :: fs).map Field.line)).length =
          f.key.length + 1 + f.value.length + 2 + (lines (fs.map Field.line)).length := by
        simp [Field.line, CRLF]; omega
      have hv : LF ∉ f.value ++ [CR] := by
        rw [List.mem_append, List.mem_singleton]
        rintro (h | h)
        · exact f.value_clean.2 h
        · exact absurd h (by decide)
      rw [htext, parseLoop_field f.key_clean.1 hv (by omega), trimmed_append_space (by decide)]
      · have ih := ih (a ++ (f.line ++ CRLF)) (ps ++ [f.pair]) (show fs.length ≤ fuel by
          simpa using hf)
        have ha : (a ++ (f.line ++ CRLF)).length =
            a.length + f.key.length + (f.value ++ [CR]).length + 2 := by
          simp [Field.line, CRLF]; omega
        have hb : (a ++ (f.line ++ CRLF)) ++ rest =
            a ++ (f.key ++ COLON :: ((f.value ++ [CR]) ++ LF :: rest)) := by
          simp [Field.line, CRLF]
        rw [hb, ha] at ih
        rw [show a.length + (lines ((f :: fs).map Field.line)).length - 2 =
          a.length + f.key.length + (f.value ++ [CR]).length + 2 +
            (lines (fs.map Field.line)).length - 2 by rw [hlen]; simp; omega]
        rw [← Field.pair, ih]
        simp
      · -- the next line is no continuation, or the block is over
        cases fs with
        | nil => left; rw [hlen]; simp; omega
        | cons f' fs =>
          right
          have := f'.line_head (CRLF ++ (lines (fs.map Field.line) ++ (CRLF ++ t)))
          simpa [hrest] using this

lemma length_le_lines (fs : List Field) : fs.length ≤ (lines (fs.map Field.line)).length - 2 := by
  induction fs with
  | nil => simp
  | cons f fs ih => simp [Field.line, CRLF]; omega

lemma parse_fieldLines (hne : r.fields ≠ []) (t : QByteArray) :
    TInternetMessageHeader.parse {} (lines r.fieldLines ++ (CRLF ++ t)) =
      ⟨r.fields.map Field.pair⟩ := by
  have hlen : indexOf (lines r.fieldLines ++ (CRLF ++ t)) CRLFCRLF 0 =
      some ((lines r.fieldLines).length - 2) := by
    rw [indexOf_zero, search_lines _ (by simpa [Request.fieldLines] using hne) (fieldLines_ok r)]
  have h := parseLoop_lines r.fields [] t []
    (show r.fields.length ≤ (lines r.fieldLines).length - 2 + 1 from
      (length_le_lines r.fields).trans (Nat.le_succ _))
  unfold TInternetMessageHeader.parse
  rw [hlen]
  simp only [List.nil_append, List.length_nil, Nat.zero_add] at h
  exact congrArg TInternetMessageHeader.mk h

/-- **A request is read as it was sent**: what follows its header does not matter when it has
a field, nor when nothing follows. -/
theorem ofBytes_head (t : QByteArray) (h : r.fields ≠ [] ∨ t = []) :
    THttpRequestHeader.ofBytes (r.head ++ t) = r.header := by
  have hsplit : r.head ++ t =
      (r.requestLine ++ [CR]) ++ LF :: (lines r.fieldLines ++ (CRLF ++ t)) := by
    simp [Request.head, CRLF]
  have hlf : LF ∉ r.requestLine ++ [CR] := by
    rw [List.mem_append, List.mem_singleton]
    rintro (h | h)
    · exact LF_not_mem_requestLine r h
    · exact absurd h (by decide)
  have hparse : TInternetMessageHeader.parse {} (lines r.fieldLines ++ (CRLF ++ t)) =
      ⟨r.fields.map Field.pair⟩ := by
    by_cases hne : r.fields = []
    · obtain rfl := h.resolve_left (not_not_intro hne)
      rw [Request.fieldLines, hne]; rfl
    · exact parse_fieldLines r hne t
  rw [hsplit, THttpRequestHeader.ofBytes_of_line (by simp) hlf, trimmed_append_space (by decide),
    trimmed_requestLine, readLine_requestLine, hparse]
  rfl

/-! ### The beginnings of a text -/

lemma search_short {r : Request} {b t : QByteArray} (hb : b <+: r.head ++ t)
    (hlt : b.length < r.head.length) :
    search CRLFCRLF b = none := by
  cases h : search CRLFCRLF b with
  | none => rfl
  | some i =>
    obtain ⟨u, hu⟩ := hb
    have h1 := search_add_length_le h
    have h2 := search_append h u
    rw [hu, search_head, Option.some.injEq] at h2
    have := head_length_pos r
    simp only [CRLFCRLF, List.length_cons, List.length_nil] at h1
    omega

lemma eq_head_append {r : Request} {b t : QByteArray} (hb : b <+: r.head ++ t)
    (hle : r.head.length ≤ b.length) :
    ∃ u, b = r.head ++ u ∧ u <+: t := by
  obtain ⟨u, rfl⟩ := List.prefix_of_prefix_length_le (List.prefix_append _ _) hb hle
  exact ⟨u, rfl, (List.prefix_append_right_inj _).mp hb⟩

end

end TreeFrog.Wire
