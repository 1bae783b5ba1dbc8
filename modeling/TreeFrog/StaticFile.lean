import TreeFrog.Bytes
import TreeFrog.Url

/-!
Static files: the file that is opened for the target of a request. The target is decoded, read as a
URL reference, resolved against `.`, written again, and the first character is cut off.
-/

namespace TreeFrog.StaticFile

open Bytes (QByteArray ascii)
open LexicalPath Url

/-! ### The file -/

def hexValue (c : UInt8) : UInt8 :=
  if 48 ≤ c ∧ c ≤ 57 then c - 48
  else if 97 ≤ c ∧ c ≤ 102 then c - 97 + 10
  else if 65 ≤ c ∧ c ≤ 70 then c - 65 + 10
  else c

/-- `QByteArray::fromPercentEncoding`. -/
def fromPercentEncoding : QByteArray → QByteArray
  | [] => []
  | [c] => [c]
  | [c, a] => [c, a]
  | c :: a :: b :: t =>
    if c = 37 then (hexValue a <<< 4 ||| hexValue b) :: fromPercentEncoding t
    else c :: fromPercentEncoding (a :: b :: t)

def fromUrlEncoding (fromUtf8 : QByteArray → Text) (enc : QByteArray) : Text :=
  fromUtf8 (fromPercentEncoding (enc.flatMap fun c => if c = 43 then [37, 50, 48] else [c]))

/-- The path of a request without a controller; a route may give another one. -/
def staticPath (fromUtf8 : QByteArray → Text) (target controller : QByteArray) : Text :=
  if controller.head? = some 47 then fromUtf8 controller
  else fromUrlEncoding fromUtf8 (target.takeWhile (· ≠ 63))

/-- The reference that is written again. -/
def canonicalUrl (path : Text) : Reference := resolved (parse here) (parse path)

def canonicalPath (path : Text) : Text := (canonicalUrl path).toString.drop 1

/-- The path of the file is below `publicPath()`; `root` is this without its last slash. -/
def Contained (root path : Text) : Prop := Below root (canonicalPath path)

/-- The path does not lead out, whatever the public directory is: cutting off the first character
does not leave a `..`, the host is none when there is no scheme, and behind the path the components
of the query and of the fragment do not climb. -/
structure Stays (r : Reference) : Prop where
  first : ∀ c ss, components r.lead ≠ [c, DOT, DOT] :: ss
  host : ∀ ss, components r.lead ≠ [] :: [] :: up :: ss
  rest : climbs (depth 0 (components (r.lead.drop 1))) r.loose = false

/-! ### The components of the file -/

variable {r : Reference}

lemma takeWhile_tail (r : Reference) :
    r.tail = [] ∨ ∃ c t, r.tail.takeWhile (· ≠ SLASH) = c :: t ∧ c ≠ DOT := by
  unfold Reference.tail
  cases r.query with
  | some q => exact .inr ⟨QUESTION, _, List.takeWhile_cons_of_pos (by decide), by decide⟩
  | none =>
    cases r.fragment with
    | some f => exact .inr ⟨HASH, _, List.takeWhile_cons_of_pos (by decide), by decide⟩
    | none => exact .inl rfl

lemma components_toString (r : Reference) :
    components (r.toString.drop 1) = components (r.lead.drop 1) ++ r.loose := by
  have hsplit : r.toString = r.lead ++ r.tail.dropWhile (· ≠ SLASH) := by
    rw [Reference.toString, Reference.lead, List.append_assoc, List.takeWhile_append_dropWhile]
  rw [hsplit, Reference.loose]
  rcases dropWhile_slash r.tail with hrest | ⟨t, hrest⟩
  · rw [hrest, List.append_nil, List.append_nil]
  · have hne : r.lead ≠ [] := by
      intro hnil
      have htail : r.tail ≠ [] := by
        intro htail
        rw [htail] at hrest
        cases hrest
      obtain ⟨c, u, hc, -⟩ := (takeWhile_tail r).resolve_left htail
      rw [Reference.lead, hc] at hnil
      exact absurd (List.append_eq_nil_iff.mp hnil).2 (List.cons_ne_nil c u)
    obtain ⟨c, l, hl⟩ := List.exists_cons_of_ne_nil hne
    rw [hrest, hl, List.cons_append, List.drop_succ_cons, List.drop_zero, List.drop_succ_cons,
      List.drop_zero, components_append_slash]

lemma not_mem_path_append (hr : Regular r) :
    up ∉ (components (r.path ++ r.tail.takeWhile (· ≠ SLASH))).tail := by
  intro h
  rcases takeWhile_tail r with htail | ⟨c, t, hc, hdot⟩
  · rw [htail, List.takeWhile_nil, List.append_nil] at h
    exact hr.dots h
  · rcases mem_components_append (not_mem_takeWhile_slash _) h with h | ⟨y, hy⟩
    · exact hr.dots h
    · have hmem : c ∈ up := by
        rw [hy, hc]
        exact List.mem_append_right _ List.mem_cons_self
      have hdots : ∀ x ∈ up, x = DOT := fun x hx => by simpa [up] using hx
      exact hdot (hdots c hmem)

lemma not_mem_authority_append (hr : Regular r) {a : Text} (ha : a ∈ r.authority) :
    up ∉ (components (a ++ (r.path ++ r.tail.takeWhile (· ≠ SLASH)))).tail := by
  have hpath := not_mem_path_append hr
  obtain ⟨s, ss, h⟩ := exists_components (r.path ++ r.tail.takeWhile (· ≠ SLASH))
  rw [h] at hpath
  rw [components_append_of_not_mem (hr.authority a ha).1 h]
  exact hpath

/-- Cutting off the first character leaves a `..`, or behind an empty host there is one. -/
def LeadsOut (l : Text) : Prop :=
  (∃ c ss, components l = [c, DOT, DOT] :: ss) ∨ ∃ ss, components l = [] :: [] :: up :: ss

lemma leadsOut_host {t w : Text} {ws : List Text} (hw : components t = w :: ws) :
    LeadsOut (SLASH :: SLASH :: t) ↔ w = up := by
  rw [LeadsOut, components_slash, components_slash, hw]
  constructor
  · rintro (⟨d, ss, h⟩ | ⟨ss, h⟩)
    · cases h
    · exact (List.cons.inj (List.cons.inj (List.cons.inj h).2).2).1
  · rintro rfl
    exact .inr ⟨ws, rfl⟩

lemma leadsOut_cons {c : UInt16} (hc : c ≠ SLASH) {t w : Text} {ws : List Text}
    (hw : components t = w :: ws) : LeadsOut (c :: t) ↔ w = up := by
  rw [LeadsOut, components_cons hc hw]
  constructor
  · rintro (⟨d, ss, h⟩ | ⟨ss, h⟩)
    · exact (List.cons.inj (List.cons.inj h).1).2
    · cases h
  · rintro rfl
    exact .inl ⟨c, ws, rfl⟩

lemma not_leadsOut_slash {l : Text} (h : up ∉ components l) : ¬ LeadsOut (SLASH :: l) := by
  rw [LeadsOut, components_slash]
  rintro (⟨d, ss, hl⟩ | ⟨ss, hl⟩)
  · cases hl
  · rw [(List.cons.inj hl).2] at h
    simp at h

lemma climbs_path {l : Text} (h : up ∉ (components l).tail) :
    climbs 0 (components (l.drop 1)) = true ↔ LeadsOut l := by
  cases l with
  | nil =>
    refine ⟨fun h => absurd h (by decide), ?_⟩
    rintro (⟨d, ss, h⟩ | ⟨ss, h⟩) <;> cases h
  | cons c l =>
    rw [List.drop_succ_cons, List.drop_zero]
    by_cases hc : c = SLASH
    · subst hc
      rw [components_slash, List.tail_cons] at h
      rw [climbs_of_not_mem h]
      exact ⟨fun hfalse => absurd hfalse Bool.false_ne_true,
        fun hout => absurd hout (not_leadsOut_slash h)⟩
    · obtain ⟨w, ws, hw⟩ := exists_components l
      rw [components_cons hc hw, List.tail_cons] at h
      rw [hw, climbs_zero h, leadsOut_cons hc hw]

lemma climbs_host {t : Text} (h : up ∉ (components t).tail) :
    climbs 0 (components ((SLASH :: SLASH :: t).drop 1)) = true ↔
      LeadsOut (SLASH :: SLASH :: t) := by
  obtain ⟨w, ws, hw⟩ := exists_components t
  rw [hw, List.tail_cons] at h
  rw [List.drop_succ_cons, List.drop_zero, components_slash, hw, climbs, if_pos (.inl rfl),
    climbs_zero h, leadsOut_host hw]

/-- A scheme: the first component has a colon in it, and is a name. -/
lemma climbs_scheme {s z w : Text} {zs : List Text} (hne : s ≠ []) (hslash : SLASH ∉ s)
    (hw : components z = w :: zs) (hzs : climbs 1 zs = false) :
    climbs 0 (components ((s ++ COLON :: z).drop 1)) = true ↔ LeadsOut (s ++ COLON :: z) := by
  obtain ⟨c, s, rfl⟩ := List.exists_cons_of_ne_nil hne
  rw [List.mem_cons, not_or] at hslash
  have hcut := components_append_of_not_mem hslash.2
    (components_cons (by decide : COLON ≠ SLASH) hw)
  have hmem : COLON ∈ s ++ COLON :: w := by simp
  have hname : ∀ x : Text, COLON ∉ x → s ++ COLON :: w ≠ x := by
    rintro x hx rfl
    exact hx hmem
  have hlong : ¬ (s ++ COLON :: w = [] ∨ s ++ COLON :: w = here) := by
    rw [not_or]
    exact ⟨hname [] (by decide), hname here (by decide)⟩
  have hup := hname up (by decide)
  have hfalse : climbs 0 (components (s ++ COLON :: z)) = false := by
    rw [hcut, climbs, if_neg hlong, if_neg hup, hzs]
  rw [List.cons_append, List.drop_succ_cons, List.drop_zero, hfalse,
    leadsOut_cons (fun h => hslash.1 h.symm) hcut]
  exact ⟨fun h => absurd h Bool.false_ne_true, fun h => absurd h hup⟩

/-- **In front of the query** the path leads out in two cases only. -/
theorem climbs_lead (hr : Regular r) :
    climbs 0 (components (r.lead.drop 1)) = true ↔ LeadsOut r.lead := by
  set q := r.tail.takeWhile (· ≠ SLASH) with hq
  have hpath := not_mem_path_append hr
  cases hs : r.scheme with
  | some s =>
    obtain ⟨hne, hslash⟩ := hr.scheme s hs
    cases ha : r.authority with
    | none =>
      have hlead : r.lead = s ++ COLON :: (r.path ++ q) := by
        rw [Reference.lead, Reference.front, hs, ha]
        simp [hq]
      obtain ⟨w, ws, hw⟩ := exists_components (r.path ++ q)
      rw [hw, List.tail_cons] at hpath
      rw [hlead]
      -- scheme and path: the scheme and its colon begin the first component
      exact climbs_scheme hne hslash hw (climbs_of_not_mem hpath)
    | some a =>
      have hlead : r.lead = s ++ COLON :: SLASH :: SLASH :: (a ++ (r.path ++ q)) := by
        rw [Reference.lead, Reference.front, hs, ha]
        simp [hq]
      have hauthority := not_mem_authority_append hr ha
      obtain ⟨w, ws, hw⟩ := exists_components (a ++ (r.path ++ q))
      rw [hw, List.tail_cons] at hauthority
      rw [hlead]
      have hbehind : components (SLASH :: SLASH :: (a ++ (r.path ++ q))) = [] :: [] :: w :: ws := by
        rw [components_slash, components_slash, hw]
      -- scheme and authority
      refine climbs_scheme hne hslash hbehind ?_
      rw [climbs, if_pos (.inl rfl)]
      exact climbs_succ hauthority
  | none =>
    cases ha : r.authority with
    | some a =>
      have hlead : r.lead = SLASH :: SLASH :: (a ++ (r.path ++ q)) := by
        rw [Reference.lead, Reference.front, hs, ha]
        simp [hq]
      rw [hlead]
      -- an authority alone
      exact climbs_host (not_mem_authority_append hr ha)
    | none =>
      have hlead : r.lead = r.path ++ q := by
        rw [Reference.lead, Reference.front, hs, ha]
        rfl
      rw [hlead]
      -- a path alone
      exact climbs_path hpath

/-- **The file that is opened is below the public directory, whichever it is, exactly when the
resolved reference stays.** -/
theorem contained_iff_stays (fromUtf8 : QByteArray → Text) (target controller : QByteArray) :
    (∀ root, Contained root (staticPath fromUtf8 target controller)) ↔
      Stays (canonicalUrl (staticPath fromUtf8 target controller)) := by
  generalize staticPath fromUtf8 target controller = path
  have hlead := climbs_lead (r := canonicalUrl path) (regular_resolved path)
  unfold Contained
  rw [forall_below_iff, canonicalPath, components_toString, climbs_append, Bool.or_eq_false_iff]
  change (climbs 0 (components ((canonicalUrl path).lead.drop 1)) = false ∧ _) ↔ _
  rw [← Bool.not_eq_true, hlead]
  constructor
  · rintro ⟨hnot, hrest⟩
    exact ⟨fun c ss h => hnot (.inl ⟨c, ss, h⟩), fun ss h => hnot (.inr ⟨ss, h⟩), hrest⟩
  · rintro ⟨hfirst, hhost, hrest⟩
    refine ⟨?_, hrest⟩
    rintro (⟨c, ss, h⟩ | ⟨ss, h⟩)
    · exact hfirst c ss h
    · exact hhost ss h

/-- An encoded question mark, and a first component that begins with a symbol too many. -/
theorem not_contained_query :
    ¬ Contained (fromAscii (ascii "/srv/app/public"))
        (staticPath fromAscii (ascii "/%3F/../../config/application.ini") []) ∧
      ¬ Contained (fromAscii (ascii "/srv/app/public"))
        (staticPath fromAscii (ascii "x../config/application.ini") []) := by
  unfold Contained Below
  decide +kernel

end TreeFrog.StaticFile
