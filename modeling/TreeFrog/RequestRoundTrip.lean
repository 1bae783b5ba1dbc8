import TreeFrog.Wire

/-!
A request header that is written is read back as it was.
-/

namespace TreeFrog.RequestRoundTrip

open Bytes MessageHeader RequestHeader Wire

/-- A field that can be told from what is around it: its value has no white space at its ends. -/
structure PlainField (p : RawHeaderPair) : Prop where
  key_ne : p.1 ≠ []
  key_clean : COLON ∉ p.1 ∧ p.1.any isspace = false
  value_clean : CR ∉ p.2.getD [] ∧ LF ∉ p.2.getD []
  value_trimmed : trimmed (p.2.getD []) = p.2.getD []

structure Plain (h : THttpRequestHeader) : Prop where
  method_ne : h.reqMethod ≠ []
  method_clean : h.reqMethod.any isspace = false
  path_clean : h.reqUri.any isspace = false
  majVersion : 0 ≤ h.majVersion ∧ h.majVersion < 10
  minVersion : 0 ≤ h.minVersion ∧ h.minVersion < 10
  fields : ∀ p ∈ h.headerPairList, PlainField p

/-- The header with empty values for the null ones, which are the same byte array. -/
def nonNull (h : THttpRequestHeader) : THttpRequestHeader :=
  { h with headerPairList := h.headerPairList.map fun p => (p.1, some (p.2.getD [])) }

lemma not_mem_of_any {b : QByteArray} (h : b.any isspace = false) {c : UInt8}
    (hc : isspace c = true) : c ∉ b := fun hm => List.any_eq_false.mp h c hm hc

namespace PlainField

variable {p : RawHeaderPair}

/-- The line of a field, with the blank behind the colon as part of its value. -/
def field (hp : PlainField p) : Field where
  key := p.1
  value := SP :: p.2.getD []
  key_clean := ⟨hp.key_clean.1, not_mem_of_any hp.key_clean.2 (by decide),
    not_mem_of_any hp.key_clean.2 (by decide)⟩
  key_head :=
    ⟨fun h => not_mem_of_any hp.key_clean.2 (by decide) (List.mem_of_head? h),
      fun h => not_mem_of_any hp.key_clean.2 (by decide) (List.mem_of_head? h)⟩
  value_clean := by
    have hcr : CR ≠ SP := by decide
    have hlf : LF ≠ SP := by decide
    simp [hcr, hlf, hp.value_clean]

lemma pair_field (hp : PlainField p) : hp.field.pair = (p.1, some (p.2.getD [])) := by
  have hkey : trimmed p.1 = p.1 := by
    refine trimmed_of_ends (fun c hc => ?_) (fun c hc => ?_)
    · exact Bool.eq_false_iff.mpr (List.any_eq_false.mp hp.key_clean.2 c (List.mem_of_head? hc))
    · exact Bool.eq_false_iff.mpr (List.any_eq_false.mp hp.key_clean.2 c (List.mem_of_getLast? hc))
  rw [Field.pair, field, hkey, trimmed_cons_space (by decide), hp.value_trimmed]

lemma line_field (hp : PlainField p) : hp.field.line = p.1 ++ ascii ": " ++ p.2.getD [] := by
  have hsep : ascii ": " = [COLON, SP] := by decide
  simp [Field.line, field, hsep]

end PlainField

/-- The fields of a header, as lines. -/
def fieldsOf (ps : List RawHeaderPair) (hps : ∀ p ∈ ps, PlainField p) : List Field :=
  ps.pmap (fun _ hp => hp.field) hps

lemma map_pair_fieldsOf (ps : List RawHeaderPair) (hps : ∀ p ∈ ps, PlainField p) :
    (fieldsOf ps hps).map Field.pair = ps.map fun p => (p.1, some (p.2.getD [])) := by
  rw [fieldsOf, List.map_pmap]
  simp only [PlainField.pair_field, List.pmap_eq_map]

lemma map_line_fieldsOf (ps : List RawHeaderPair) (hps : ∀ p ∈ ps, PlainField p) :
    (fieldsOf ps hps).map Field.line = ps.map fun p => p.1 ++ ascii ": " ++ p.2.getD [] := by
  rw [fieldsOf, List.map_pmap]
  simp only [PlainField.line_field, List.pmap_eq_map]

lemma number_digit (d : Fin 10) : Decimal.number (d : ℕ) = [digit d] := by revert d; decide

lemma exists_digit {n : ℤ} (h : 0 ≤ n ∧ n < 10) : ∃ d : Fin 10, n = ((d : ℕ) : ℤ) :=
  ⟨⟨n.toNat, by omega⟩, by simp only; omega⟩

lemma exists_request {h : THttpRequestHeader} (hp : Plain h) :
    ∃ r : Request, r.head = h.toByteArray ∧ r.header = nonNull h := by
  obtain ⟨maj, hmaj⟩ := exists_digit hp.majVersion
  obtain ⟨min, hmin⟩ := exists_digit hp.minVersion
  let fields := fieldsOf h.headerPairList hp.fields
  let r : Request :=
    { method := h.reqMethod, path := h.reqUri, majVersion := maj, minVersion := min
      fields := fields
      body := List.replicate
        (TInternetMessageHeader.mk (fields.map Field.pair)).contentLength 0
      method_ne := hp.method_ne
      method_clean := hp.method_clean
      path_clean := ⟨not_mem_of_any hp.path_clean (by decide),
        not_mem_of_any hp.path_clean (by decide), not_mem_of_any hp.path_clean (by decide)⟩
      body_length := List.length_replicate }
  refine ⟨r, ?_, ?_⟩
  · have hline : r.requestLine = h.reqMethod ++ [SP] ++ h.reqUri ++ ascii " HTTP/" ++
        Decimal.number h.majVersion ++ ascii "." ++ Decimal.number h.minVersion := by
      have hslash : ascii " HTTP/" = SP :: ascii "HTTP/" := by decide
      have hdot : ascii "." = [dot] := by decide
      rw [hmaj, hmin, number_digit, number_digit, hslash, hdot]
      simp [r, Request.requestLine]
    have hfields : lines r.fieldLines = h.headerPairList.flatMap fun p =>
        p.1 ++ ascii ": " ++ p.2.getD [] ++ CRLF := by
      rw [Request.fieldLines, map_line_fieldsOf, lines, List.flatMap_map]
    rw [Request.head, lines_cons, hline, hfields, THttpRequestHeader.toByteArray,
      TInternetMessageHeader.toByteArray]
    simp only [List.append_assoc]
  · have hpairs := map_pair_fieldsOf h.headerPairList hp.fields
    simp only [Request.header, nonNull, r, fields, hpairs, hmaj, hmin]

/-- **Round trip**: the header that was written is the one that is read. -/
theorem ofBytes_toByteArray {h : THttpRequestHeader} (hp : Plain h) :
    THttpRequestHeader.ofBytes h.toByteArray = nonNull h := by
  obtain ⟨r, hhead, hheader⟩ := exists_request hp
  have hread := ofBytes_head r [] (.inr rfl)
  rwa [List.append_nil, hhead, hheader] at hread

/-- A request with a field twice and an empty one. -/
def sample : THttpRequestHeader where
  headerPairList := [(ascii "Accept", some (ascii "a: b")), (ascii "X", some []),
    (ascii "Accept", some (ascii "c"))]
  reqMethod := ascii "GET"
  reqUri := ascii "/?q"

theorem ofBytes_toByteArray_sample :
    THttpRequestHeader.ofBytes sample.toByteArray = nonNull sample := by
  refine ofBytes_toByteArray ⟨by decide, by decide, by decide, by decide, by decide, ?_⟩
  intro p hp
  simp only [sample, List.mem_cons, List.not_mem_nil, or_false] at hp
  rcases hp with rfl | rfl | rfl
  all_goals exact ⟨by decide, by decide, by decide, by decide⟩

end TreeFrog.RequestRoundTrip
