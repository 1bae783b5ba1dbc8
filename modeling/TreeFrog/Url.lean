import TreeFrog.LexicalPath

/-!
URL references as RFC 3986 describes them: their parts, how a reference is resolved against a base,
and how the parts are put together again. Dot segments are removed from the path alone.
-/

namespace TreeFrog.Url

open LexicalPath

@[match_pattern] abbrev HASH : UInt16 := 35
@[match_pattern] abbrev QUESTION : UInt16 := 63
@[match_pattern] abbrev COLON : UInt16 := 58

structure Reference where
  scheme : Option Text
  authority : Option Text
  path : Text
  query : Option Text
  fragment : Option Text

/-- A text up to the first `c`, and what stands behind it. -/
def cut (c : UInt16) (t : Text) : Text × Option Text :=
  (t.takeWhile (· ≠ c),
    match t.dropWhile (· ≠ c) with
    | [] => none
    | _ :: rest => some rest)

def isAlpha (c : UInt16) : Bool := (65 ≤ c && c ≤ 90) || (97 ≤ c && c ≤ 122)

/-- Letters, then letters, digits, `+`, `-` and `.`. -/
def isScheme : Text → Bool
  | [] => false
  | c :: t =>
    isAlpha c && t.all fun c => isAlpha c || (48 ≤ c && c ≤ 57) || c = 43 || c = 45 || c = DOT

def cutScheme (t : Text) : Option Text × Text :=
  match cut COLON t with
  | (s, some rest) => if isScheme s then (some s, rest) else (none, t)
  | (_, none) => (none, t)

def cutAuthority : Text → Option Text × Text
  | SLASH :: SLASH :: t => (some (t.takeWhile (· ≠ SLASH)), t.dropWhile (· ≠ SLASH))
  | t => (none, t)

def parse (t : Text) : Reference :=
  let (t, fragment) := cut HASH t
  let (t, query) := cut QUESTION t
  let (scheme, t) := cutScheme t
  let (authority, path) := cutAuthority t
  ⟨scheme, authority, path, query, fragment⟩

/-! ### Dot segments -/

/-- Without the dot segments at the beginning of a relative path. -/
def stripDots : List Text → List Text
  | [] => []
  | s :: ss => if s = here ∨ s = up then stripDots ss else s :: ss

/-- The output: a first segment, and others, each behind a slash. -/
abbrev Output := Text × List Text

def Output.text (out : Output) : Text := out.1 ++ out.2.flatMap (SLASH :: ·)

/-- Without the last segment, and the slash in front of it. -/
def Output.pop (out : Output) : Output := if out.2 = [] then ([], []) else (out.1, out.2.dropLast)

def Output.push (out : Output) (s : Text) : Output := (out.1, out.2 ++ [s])

def removeLoop (out : Output) : List Text → Output
  | [] => out
  | [s] => if s = here then out.push [] else if s = up then out.pop.push [] else out.push s
  | s :: ss =>
    if s = here then removeLoop out ss
    else if s = up then removeLoop out.pop ss
    else removeLoop (out.push s) ss

def removeDotSegments (path : Text) : Text :=
  match stripDots (components path) with
  | [] => []
  | s :: ss => (removeLoop (s, []) ss).text

/-! ### Resolution -/

def mergePaths (base : Reference) (path : Text) : Text :=
  if base.authority.isSome ∧ base.path = [] then SLASH :: path
  else (base.path.reverse.dropWhile (· ≠ SLASH)).reverse ++ path

def resolved (base r : Reference) : Reference :=
  if r.scheme.isSome then { r with path := removeDotSegments r.path }
  else if r.authority.isSome then
    { r with scheme := base.scheme, path := removeDotSegments r.path }
  else if r.path = [] then
    ⟨base.scheme, base.authority, base.path, r.query <|> base.query, r.fragment⟩
  else
    let path := if r.path.head? = some SLASH then r.path else mergePaths base r.path
    ⟨base.scheme, base.authority, removeDotSegments path, r.query, r.fragment⟩

namespace Reference

/-- The text in front of the query. -/
def front (r : Reference) : Text :=
  (match r.scheme with
    | some s => s ++ [COLON]
    | none => []) ++
  (match r.authority with
    | some a => SLASH :: SLASH :: a
    | none => []) ++ r.path

/-- The query and the fragment. -/
def tail (r : Reference) : Text :=
  (match r.query with
    | some q => QUESTION :: q
    | none => []) ++
  (match r.fragment with
    | some f => HASH :: f
    | none => [])

def toString (r : Reference) : Text := r.front ++ r.tail

/-- The text up to the first slash behind the path. -/
def lead (r : Reference) : Text := r.front ++ r.tail.takeWhile (· ≠ SLASH)

/-- The components of the query and the fragment that stand behind a slash. -/
def loose (r : Reference) : List Text :=
  match r.tail.dropWhile (· ≠ SLASH) with
  | [] => []
  | _ :: t => components t

end Reference

/-! ### Paths without dot segments -/

lemma components_text {out : Output} (h1 : SLASH ∉ out.1) (h2 : ∀ s ∈ out.2, SLASH ∉ s) :
    components out.text = out.1 :: out.2 := by
  obtain ⟨f, ss⟩ := out
  induction ss generalizing f with
  | nil => exact (congrArg components (List.append_nil f)).trans (components_of_not_mem h1)
  | cons s ss ih =>
    have hrest := ih s (h2 s List.mem_cons_self) fun s hs => h2 s (List.mem_cons_of_mem _ hs)
    change components (f ++ SLASH :: Output.text (s, ss)) = f :: s :: ss
    rw [components_append_slash, components_of_not_mem h1, hrest]
    rfl

/-- The segments of the output have no slash, and are no dot segments. -/
structure Clean (out : Output) : Prop where
  first : SLASH ∉ out.1
  slash : ∀ s ∈ out.2, SLASH ∉ s
  dots : up ∉ out.2

lemma Clean.pop {out : Output} (h : Clean out) : Clean out.pop := by
  unfold Output.pop
  split_ifs
  · exact ⟨List.not_mem_nil, fun s hs => absurd hs List.not_mem_nil, List.not_mem_nil⟩
  · exact ⟨h.first, fun s hs => h.slash s (List.dropLast_subset _ hs),
      fun hs => h.dots (List.dropLast_subset _ hs)⟩

lemma Clean.push {out : Output} (h : Clean out) {s : Text} (hs : SLASH ∉ s) (hup : s ≠ up) :
    Clean (out.push s) := by
  refine ⟨h.first, fun x hx => ?_, fun hx => ?_⟩
  · rcases List.mem_append.mp hx with hx | hx
    · exact h.slash x hx
    · rw [List.mem_singleton.mp hx]
      exact hs
  · rcases List.mem_append.mp hx with hx | hx
    · exact h.dots hx
    · exact hup (List.mem_singleton.mp hx).symm

lemma Clean.removeLoop {out : Output} (h : Clean out) {ss : List Text} (hss : ∀ s ∈ ss, SLASH ∉ s) :
    Clean (removeLoop out ss) := by
  induction ss generalizing out with
  | nil => exact h
  | cons s ss ih =>
    have hs := hss s List.mem_cons_self
    have hrest : ∀ s ∈ ss, SLASH ∉ s := fun s hs => hss s (List.mem_cons_of_mem _ hs)
    cases ss with
    | nil =>
      rw [Url.removeLoop]
      split_ifs with h1 h2
      · exact h.push List.not_mem_nil (by decide)
      · exact h.pop.push List.not_mem_nil (by decide)
      · exact h.push hs h2
    | cons t ss =>
      rw [Url.removeLoop]
      · split_ifs with h1 h2
        · exact ih h hrest
        · exact ih h.pop hrest
        · exact ih (h.push hs h2) hrest
      · exact List.cons_ne_nil _ _

lemma stripDots_suffix (ss : List Text) : stripDots ss <:+ ss := by
  induction ss with
  | nil => exact List.suffix_refl _
  | cons s ss ih =>
    rw [stripDots]
    split_ifs
    · exact ih.trans (List.suffix_cons s ss)
    · exact List.suffix_refl _

/-- **Dot segments are removed**: behind its first component a path has no `..`. -/
theorem not_mem_removeDotSegments (path : Text) :
    up ∉ (components (removeDotSegments path)).tail := by
  have hslash : ∀ t ∈ stripDots (components path), SLASH ∉ t := fun t ht =>
    not_mem_of_mem_components ((stripDots_suffix _).subset ht)
  rw [removeDotSegments]
  cases h : stripDots (components path) with
  | nil => exact List.not_mem_nil
  | cons s ss =>
    rw [h] at hslash
    have hclean : Clean (removeLoop (s, []) ss) :=
      Clean.removeLoop ⟨hslash s List.mem_cons_self, fun t ht => absurd ht List.not_mem_nil,
        List.not_mem_nil⟩ fun t ht => hslash t (List.mem_cons_of_mem _ ht)
    dsimp only
    rw [components_text hclean.first hclean.slash]
    exact hclean.dots

lemma removeLoop_fst {out : Output} (h : out.1 = []) (ss : List Text) :
    (removeLoop out ss).1 = [] := by
  have hpop : ∀ out : Output, out.1 = [] → out.pop.1 = [] := fun out h => by
    unfold Output.pop
    split_ifs
    · rfl
    · exact h
  induction ss generalizing out with
  | nil => exact h
  | cons s ss ih =>
    cases ss with
    | nil =>
      rw [removeLoop]
      split_ifs
      · exact h
      · exact hpop out h
      · exact h
    | cons t ss =>
      rw [removeLoop]
      · split_ifs
        · exact ih h
        · exact ih (hpop out h)
        · exact ih h
      · exact List.cons_ne_nil _ _

lemma removeDotSegments_rooted {path : Text} (h : path = [] ∨ ∃ t, path = SLASH :: t) :
    removeDotSegments path = [] ∨ ∃ t, removeDotSegments path = SLASH :: t := by
  have hrooted : ∀ out : Output, out.1 = [] → out.text = [] ∨ ∃ t, out.text = SLASH :: t := by
    rintro ⟨f, ss⟩ rfl
    cases ss with
    | nil => exact .inl rfl
    | cons s ss => exact .inr ⟨s ++ ss.flatMap (SLASH :: ·), rfl⟩
  rcases h with rfl | ⟨t, rfl⟩
  · exact .inl rfl
  · rw [removeDotSegments, components_slash, stripDots, if_neg (by decide)]
    exact hrooted _ (removeLoop_fst rfl _)

/-! ### The parts of a resolved reference -/

lemma not_mem_takeWhile_slash (t : Text) : SLASH ∉ t.takeWhile (· ≠ SLASH) := by
  intro h
  have hall := List.all_eq_true.mp (List.all_takeWhile (p := (· ≠ SLASH)) (l := t)) _ h
  exact absurd hall (by decide)

lemma dropWhile_slash (t : Text) :
    t.dropWhile (· ≠ SLASH) = [] ∨ ∃ u, t.dropWhile (· ≠ SLASH) = SLASH :: u := by
  have hhead := List.head?_dropWhile_not (· ≠ SLASH) t
  cases h : t.dropWhile (· ≠ SLASH) with
  | nil => exact .inl rfl
  | cons c u =>
    rw [h] at hhead
    have hc : c = SLASH := by simpa using hhead
    exact .inr ⟨u, by rw [hc]⟩

/-- What parsing and resolving give. -/
structure Regular (r : Reference) : Prop where
  dots : up ∉ (components r.path).tail
  scheme : ∀ s ∈ r.scheme, s ≠ [] ∧ SLASH ∉ s
  authority : ∀ a ∈ r.authority, SLASH ∉ a ∧ (r.path = [] ∨ ∃ t, r.path = SLASH :: t)

lemma isScheme_iff {s : Text} (h : isScheme s = true) : s ≠ [] ∧ SLASH ∉ s := by
  cases s with
  | nil => cases h
  | cons c t =>
    rw [isScheme, Bool.and_eq_true, List.all_eq_true] at h
    refine ⟨List.cons_ne_nil c t, fun hmem => ?_⟩
    rcases List.mem_cons.mp hmem with rfl | hmem
    · exact absurd h.1 (by decide)
    · exact absurd (h.2 _ hmem) (by decide)

lemma scheme_parse {t s : Text} (h : s ∈ (parse t).scheme) : s ≠ [] ∧ SLASH ∉ s := by
  have hcut : ∀ t, s ∈ (cutScheme t).1 → isScheme s = true := by
    intro t hs
    unfold cutScheme at hs
    split at hs
    · split_ifs at hs with hscheme
      · cases hs
        exact hscheme
      · cases hs
    · cases hs
  exact isScheme_iff (hcut _ h)

lemma authority_parse {t a : Text} (h : a ∈ (parse t).authority) :
    SLASH ∉ a ∧ ((parse t).path = [] ∨ ∃ u, (parse t).path = SLASH :: u) := by
  have hcut : ∀ t, a ∈ (cutAuthority t).1 →
      SLASH ∉ a ∧ ((cutAuthority t).2 = [] ∨ ∃ u, (cutAuthority t).2 = SLASH :: u) := by
    intro t ha
    unfold cutAuthority at ha ⊢
    split at ha
    · next u =>
      cases ha
      exact ⟨not_mem_takeWhile_slash u, dropWhile_slash u⟩
    · cases ha
  exact hcut _ h

/-- **A reference resolved against `.`** has no `..` in its path, behind the first component. -/
theorem regular_resolved (t : Text) : Regular (resolved (parse here) (parse t)) := by
  have hscheme := fun s => scheme_parse (t := t) (s := s)
  have hauthority := fun a => authority_parse (t := t) (a := a)
  generalize parse t = r at hscheme hauthority ⊢
  have hbase : parse here = ⟨none, none, here, none, none⟩ := rfl
  have hhere : up ∉ (components here).tail := by decide
  rw [hbase, resolved]
  dsimp only
  split_ifs with h1 h2 h3 h4
  · exact ⟨not_mem_removeDotSegments _, hscheme,
      fun a ha => ⟨(hauthority a ha).1, removeDotSegments_rooted (hauthority a ha).2⟩⟩
  · exact ⟨not_mem_removeDotSegments _, fun s hs => (by cases hs),
      fun a ha => ⟨(hauthority a ha).1, removeDotSegments_rooted (hauthority a ha).2⟩⟩
  · exact ⟨hhere, fun s hs => (by cases hs), fun a ha => (by cases ha)⟩
  · exact ⟨not_mem_removeDotSegments _, fun s hs => (by cases hs), fun a ha => (by cases ha)⟩
  · exact ⟨not_mem_removeDotSegments _, fun s hs => (by cases hs), fun a ha => (by cases ha)⟩

end TreeFrog.Url
