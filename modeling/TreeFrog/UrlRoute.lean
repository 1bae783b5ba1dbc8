import TreeFrog.Bytes
import TreeFrog.LexicalPath

/-!
`TUrlRoute`: the routes read from a configuration, the search for the route of a path and the search
for the path of an action.

A pattern is filled with arguments on the one side and taken apart again on the other. Filling it
and taking it apart are inverse as long as no component is lost at the end of the path.
-/

namespace TreeFrog.UrlRoute

open TreeFrog.Bytes TreeFrog.LexicalPath

/-- `Tf::HttpMethod`. -/
inductive HttpMethod where
  | invalid
  | get
  | head
  | post
  | options
  | put
  | delete
  | trace
  | connect
  | patch
  deriving DecidableEq, Repr

/-- `TRoute::RouteDirective`: those of a method have its number. -/
inductive RouteDirective where
  | matchAny
  | only (method : HttpMethod)
  | invalid
  deriving DecidableEq, Repr

structure TRoute where
  method : RouteDirective
  componentList : List Text
  keywordIndexes : List ℕ
  controller : QByteArray
  action : QByteArray
  paramNum : ℕ
  hasVariableParams : Bool
  deriving DecidableEq, Repr

structure TRouting where
  exists_ : Bool
  controller : QByteArray
  action : QByteArray
  params : List Text
  deriving DecidableEq

/-- `TRouting()`. -/
def TRouting.none : TRouting := ⟨false, [], [], []⟩

/-- What is used of `QString`. -/
structure Unicode where
  isSpace : UInt16 → Bool
  toLower : Text → Text
  toLatin1 : Text → QByteArray
  toUtf8 : Text → QByteArray

def text (s : String) : Text := fromAscii (ascii s)

def PARAM : Text := text ":param"
def PARAMS : Text := text ":params"

/-! ### Reading a route -/

def directiveHash (name : Text) : RouteDirective :=
  if name = text "match" then .matchAny
  else if name = text "get" then .only .get
  else if name = text "post" then .only .post
  else if name = text "put" then .only .put
  else if name = text "patch" then .only .patch
  else if name = text "delete" then .only .delete
  else if name = text "trace" then .only .trace
  else if name = text "connect" then .only .connect
  else .invalid

/-- `line.simplified().split(' ')`: the words of the line, or one empty word. -/
def words (u : Unicode) (line : Text) : List Text :=
  match (line.splitOnP u.isSpace).filter (· ≠ []) with
  | [] => [[]]
  | ws => ws

/-- `THttpUtility::trimmedQuotes`; a word has no white space at its ends. -/
def trimmedQuotes (s : Text) : Text :=
  if 1 < s.length ∧ ((s.head? = some 34 ∧ s.getLast? = some 34) ∨
      (s.head? = some 39 ∧ s.getLast? = some 39)) then
    (s.drop 1).take (s.length - 2)
  else s

def splitPath (path : Text) : List Text :=
  let s := if path.head? = some SLASH then 1 else 0
  let len := if 1 < path.length ∧ path.getLast? = some SLASH then path.length - 1 else path.length
  components ((path.drop s).take (len - s))

/-- The loop of `addRouteFromString` over the components: the indexes of those that are no
parameters; none if a parameter is neither `:param` nor `:params`. -/
def keywordLoop : ℕ → List Text → Option (List ℕ)
  | _, [] => some []
  | i, c :: cs =>
    if c.head? = some 58 then
      if c ≠ PARAM ∧ c ≠ PARAMS then none else keywordLoop (i + 1) cs
    else (keywordLoop (i + 1) cs).map (i :: ·)

/-- The controller and the action of a destination that is no static file. -/
def destination (item : Text) : Option (Text × Text) :=
  match item.splitOnP fun c => c = 35 || c = 46 with
  | [controller, action] => some (controller, action)
  | _ => none

/-- The route of a line; none if `addRouteFromString` returns `false`. -/
def parseRoute (u : Unicode) (line : Text) : Option TRoute :=
  match words u line with
  | [directive, item1, item2] =>
    let path := trimmedQuotes item1
    let item2 := trimmedQuotes item2
    if PARAMS <:+: path ∧ ¬ PARAMS <:+ path then none
    else
      match directiveHash (u.toLower directive) with
      | .invalid => none
      | method =>
        let componentList := splitPath path
        match keywordLoop 0 componentList with
        | none => none
        | some keywordIndexes =>
          let rt (controller action : QByteArray) : TRoute :=
            { method, componentList, keywordIndexes, controller, action,
              paramNum := componentList.count PARAM,
              hasVariableParams := componentList.contains PARAMS }
          if item2.head? = some SLASH then some (rt (u.toUtf8 item2) [])
          else
            match destination item2 with
            | none => none
            | some (controller, action) =>
              some (rt (u.toLatin1 (u.toLower controller) ++ ascii "controller")
                (u.toLatin1 action))
  | _ => none

def addRouteFromString (u : Unicode) (routes : List TRoute) (line : Text) : Bool × List TRoute :=
  match parseRoute u line with
  | none => (false, routes)
  | some rt => (true, routes ++ [rt])

/-- The routes after these lines. -/
def table (u : Unicode) (lines : List Text) : List TRoute :=
  lines.foldl (fun routes line => (addRouteFromString u routes line).2) []

/-! ### Searching -/

/-- The route fits: not too long or short, the keywords are there, and so is the method. -/
def fits (method : HttpMethod) (components : List Text) (rt : TRoute) : Bool :=
  (if rt.hasVariableParams then rt.componentList.length - 1 ≤ components.length
    else components.length = rt.componentList.length) &&
  (rt.keywordIndexes.all fun idx => components.getD idx [] = rt.componentList.getD idx []) &&
  (rt.method = .matchAny || rt.method = .only method)

/-- Erases non-parameters, the last ones first. -/
def erase (keywordIndexes : List ℕ) (params : List Text) : List Text :=
  keywordIndexes.foldr (fun idx params => params.eraseIdx idx) params

def findRouting (routes : List TRoute) (method : HttpMethod) (components : List Text) : TRouting :=
  match routes.find? (fits method components) with
  | none => .none
  | some rt =>
    { exists_ := true, controller := rt.controller, action := rt.action,
      params := if components = [[]] then [] else erase rt.keywordIndexes components }

def join (params : List Text) : Text := [SLASH].intercalate params

/-- The loop of `generatePath`, with the number of parameters used. -/
def pathLoop (params : List Text) : ℕ → List Text → Text
  | _, [] => []
  | cnt, c :: cs =>
    if c = PARAM then params.getD cnt [] ++ SLASH :: pathLoop params (cnt + 1) cs
    else if c = PARAMS then join (params.drop cnt) ++ [SLASH]
    else c ++ SLASH :: pathLoop params cnt cs

def generatePath (components params : List Text) : Text :=
  let ret := SLASH :: pathLoop params 0 components
  if 1 < ret.length then ret.dropLast else ret

/-- The number of parameters is that of the route. -/
def admits (rt : TRoute) (count : ℕ) : Bool :=
  (rt.paramNum = count && !rt.hasVariableParams) || (rt.paramNum ≤ count && rt.hasVariableParams)

def findUrl (u : Unicode) (routes : List TRoute) (controller action : Text) (params : List Text) :
    Text :=
  let ctrl := u.toLatin1 (u.toLower controller) ++ ascii "controller"
  let act := u.toLatin1 (u.toLower action)
  match routes.find? fun rt =>
      rt.controller = ctrl && rt.action = act && admits rt params.length with
  | none => []
  | some rt => generatePath rt.componentList params

/-! ### What a line gives -/

variable {u : Unicode} {line : Text} {rt : TRoute}

/-- The controller and the action that a line names. -/
def names (u : Unicode) (line : Text) : Option (Text × Text) :=
  match words u line with
  | [_, _, item2] =>
    if (trimmedQuotes item2).head? = some SLASH then none else destination (trimmedQuotes item2)
  | _ => none

/-- The indexes of the components that are no parameters. -/
def keywords : List Text → List ℕ
  | [] => []
  | c :: cs =>
    if c = PARAM ∨ c = PARAMS then (keywords cs).map (· + 1) else 0 :: (keywords cs).map (· + 1)

/-- What the search relies on. -/
structure Parsed (u : Unicode) (controller action : Text) (rt : TRoute) : Prop where
  method : rt.method = .matchAny ∨ ∃ m, rt.method = .only m
  components : ∃ path, rt.componentList = splitPath path
  keywords : rt.keywordIndexes = keywords rt.componentList
  controller : rt.controller = u.toLatin1 (u.toLower controller) ++ ascii "controller"
  action : rt.action = u.toLatin1 action
  paramNum : rt.paramNum = rt.componentList.count PARAM
  hasVariableParams : rt.hasVariableParams = rt.componentList.contains PARAMS

lemma head_param : PARAM.head? = some 58 := by decide

lemma head_params : PARAMS.head? = some 58 := by decide

lemma keywordLoop_eq {cs : List Text} {i : ℕ} {idxs : List ℕ} (h : keywordLoop i cs = some idxs) :
    idxs = (keywords cs).map (· + i) := by
  induction cs generalizing i idxs with
  | nil =>
    rw [keywordLoop, Option.some.injEq] at h
    exact h.symm
  | cons c cs ih =>
    have hshift : ∀ l : List ℕ, (l.map (· + 1)).map (· + i) = l.map (· + (i + 1)) := fun l => by
      rw [List.map_map]
      exact List.map_congr_left fun n _ => by simp only [Function.comp]; omega
    rw [keywordLoop] at h
    rw [keywords]
    by_cases hcolon : c.head? = some 58
    · rw [if_pos hcolon] at h
      split_ifs at h with hbad
      have hparam : c = PARAM ∨ c = PARAMS := by tauto
      rw [if_pos hparam, hshift]
      exact ih h
    · rw [if_neg hcolon] at h
      obtain ⟨rest, hrest, rfl⟩ := Option.map_eq_some_iff.mp h
      have hkeyword : ¬ (c = PARAM ∨ c = PARAMS) := by
        rintro (rfl | rfl)
        · exact hcolon head_param
        · exact hcolon head_params
      rw [if_neg hkeyword, List.map_cons, hshift, ih hrest, Nat.zero_add]

lemma parsed_of_names {controller action : Text} (h : parseRoute u line = some rt)
    (hnames : names u line = some (controller, action)) : Parsed u controller action rt := by
  unfold parseRoute at h
  unfold names at hnames
  split at h
  · next directive item1 item2 hwords =>
    rw [hwords] at hnames
    dsimp only at h hnames
    split_ifs at hnames with hstatic
    split_ifs at h
    split at h
    · cases h
    · next hmethod =>
      split at h
      · cases h
      · next idxs hidxs =>
        rw [hnames] at h
        obtain rfl := Option.some.inj h
        refine ⟨?_, ⟨_, rfl⟩, ?_, rfl, rfl, rfl, rfl⟩
        · cases hdirective : directiveHash (u.toLower directive) with
          | matchAny => exact .inl rfl
          | only m => exact .inr ⟨m, rfl⟩
          | invalid => exact absurd hdirective hmethod
        · rw [keywordLoop_eq hidxs]
          exact List.map_id _
  · cases h

lemma table_eq (u : Unicode) (lines : List Text) :
    table u lines = lines.filterMap (parseRoute u) := by
  have hloop : ∀ (lines : List Text) (routes : List TRoute),
      lines.foldl (fun routes line => (addRouteFromString u routes line).2) routes =
        routes ++ lines.filterMap (parseRoute u) := by
    intro lines
    induction lines with
    | nil => exact fun routes => (List.append_nil _).symm
    | cons line lines ih =>
      intro routes
      rw [List.foldl_cons, ih, addRouteFromString, List.filterMap_cons]
      cases parseRoute u line with
      | none => rfl
      | some rt => exact List.append_assoc _ _ _
  exact (hloop lines []).trans (List.nil_append _)

lemma table_append {line : Text} (h : parseRoute u line = some rt) (before behind : List Text) :
    table u (before ++ line :: behind) = table u before ++ rt :: table u behind := by
  rw [table_eq, table_eq, table_eq, List.filterMap_append, List.filterMap_cons, h]

/-! ### Joining and splitting -/

lemma join_cons {x : Text} {xs : List Text} (h : xs ≠ []) :
    join (x :: xs) = x ++ SLASH :: join xs := by
  rw [join, List.intercalate_cons_of_ne_nil h, List.append_assoc]
  rfl

lemma join_append_singleton {xs : List Text} (h : xs ≠ []) (x : Text) :
    join (xs ++ [x]) = join xs ++ SLASH :: x := by
  induction xs with
  | nil => exact absurd rfl h
  | cons y ys ih =>
    by_cases hys : ys = []
    · subst hys
      rw [List.singleton_append, join_cons (List.cons_ne_nil _ _), join, join,
        List.intercalate_singleton, List.intercalate_singleton]
    · rw [List.cons_append, join_cons (List.append_ne_nil_of_left_ne_nil hys _), ih hys,
        join_cons hys, List.append_assoc, List.cons_append]

lemma flatMap_slash {xs : List Text} (h : xs ≠ []) :
    xs.flatMap (· ++ [SLASH]) = join xs ++ [SLASH] := by
  induction xs with
  | nil => exact absurd rfl h
  | cons x xs ih =>
    by_cases hxs : xs = []
    · subst hxs
      simp [join]
    · rw [List.flatMap_cons, ih hxs, join_cons hxs]
      simp

lemma components_join {xs : List Text} (h : xs ≠ []) (hfree : ∀ x ∈ xs, SLASH ∉ x) :
    components (join xs) = xs := by
  induction xs with
  | nil => exact absurd rfl h
  | cons x xs ih =>
    have hx : components x = [x] := components_of_not_mem (hfree x List.mem_cons_self)
    by_cases hxs : xs = []
    · subst hxs
      exact (congrArg components List.intercalate_singleton).trans hx
    · rw [join_cons hxs, components_append_slash, hx,
        ih hxs fun y hy => hfree y (List.mem_cons_of_mem _ hy)]
      rfl

lemma splitPath_slash (t : Text) :
    splitPath (SLASH :: t) = components (if t.getLast? = some SLASH then t.dropLast else t) := by
  unfold splitPath
  rcases List.eq_nil_or_concat t with rfl | ⟨t, c, rfl⟩
  · rfl
  · rw [List.concat_eq_append]
    have hlast : (SLASH :: (t ++ [c])).getLast? = some c := List.getLast?_concat (l := SLASH :: t)
    by_cases hc : c = SLASH
    · subst hc
      simp [hlast]
    · have hwhole : (t ++ [c]).take (t.length + 1) = t ++ [c] :=
        List.take_of_length_le (by rw [List.length_append, List.length_singleton])
      simp [hlast, hc, hwhole]

/-- **Splitting what was joined** gives the components back, except for an empty one at the end. -/
lemma splitPath_join {xs : List Text} (h : xs ≠ []) (hfree : ∀ x ∈ xs, SLASH ∉ x) :
    splitPath (SLASH :: join xs) =
      if 2 ≤ xs.length ∧ xs.getLast? = some [] then xs.dropLast else xs := by
  rw [splitPath_slash]
  obtain ⟨ys, x, rfl⟩ := (List.eq_nil_or_concat xs).resolve_left h
  rw [List.concat_eq_append] at h hfree ⊢
  split_ifs with hslash hempty hempty
  · obtain ⟨hlen, hlast⟩ := hempty
    obtain rfl : x = [] := by simpa using hlast
    have hys : ys ≠ [] := by rintro rfl; simp at hlen
    rw [join_append_singleton hys, List.dropLast_concat, List.dropLast_concat]
    exact components_join hys fun y hy => hfree y (List.mem_append_left _ hy)
  · -- a slash at the end is one before an empty component
    exfalso
    obtain ⟨t, ht⟩ := List.getLast?_eq_some_iff.mp hslash
    have hsplit : ys ++ [x] = components t ++ [[]] := by
      rw [← components_join h hfree, ht, components_append_slash]
      rfl
    obtain ⟨rfl, hx⟩ := List.append_inj' hsplit rfl
    have hlen := List.length_pos_iff.mpr (components_ne_nil t)
    refine hempty ⟨?_, ?_⟩
    · rw [List.length_append, List.length_singleton]
      omega
    · rw [hx]
      exact List.getLast?_concat
  · exfalso
    obtain ⟨hlen, hlast⟩ := hempty
    obtain rfl : x = [] := by simpa using hlast
    have hys : ys ≠ [] := by rintro rfl; simp at hlen
    rw [join_append_singleton hys] at hslash
    exact hslash List.getLast?_concat
  · exact components_join h hfree

/-! ### Filling a pattern -/

/-- The components of a pattern, with the arguments in place of the parameters. -/
def filled : List Text → List Text → List Text
  | [], _ => []
  | c :: cs, ps =>
    if c = PARAM then ps.headD [] :: filled cs ps.tail
    else if c = PARAMS then (if ps = [] then [[]] else ps)
    else c :: filled cs ps

variable {cs ps : List Text}

lemma filled_param (cs ps : List Text) :
    filled (PARAM :: cs) ps = ps.headD [] :: filled cs ps.tail := by
  rw [filled, if_pos rfl]

lemma filled_literal {c : Text} (h : ¬ (c = PARAM ∨ c = PARAMS)) (cs ps : List Text) :
    filled (c :: cs) ps = c :: filled cs ps := by
  rw [not_or] at h
  rw [filled, if_neg h.1, if_neg h.2]

lemma params_ne_param : PARAMS ≠ PARAM := by decide

lemma pathLoop_eq (params : List Text) (cnt : ℕ) (cs : List Text) :
    pathLoop params cnt cs = (filled cs (params.drop cnt)).flatMap (· ++ [SLASH]) := by
  induction cs generalizing cnt with
  | nil => rfl
  | cons c cs ih =>
    rw [pathLoop]
    split_ifs with hparam hparams
    · rw [hparam, filled_param, ih, List.tail_drop, List.flatMap_cons, List.append_assoc]
      congr 1
      rw [List.headD_eq_head?_getD, List.head?_drop, List.getD_eq_getElem?_getD]
    · rw [hparams, filled, if_neg params_ne_param, if_pos rfl]
      split_ifs with hrest
      · rw [hrest]
        rfl
      · exact (flatMap_slash hrest).symm
    · rw [filled_literal (not_or.mpr ⟨hparam, hparams⟩), ih, List.flatMap_cons, List.append_assoc]
      rfl

lemma filled_ne_nil (h : cs ≠ []) (ps : List Text) : filled cs ps ≠ [] := by
  cases cs with
  | nil => exact absurd rfl h
  | cons c cs =>
    rw [filled]
    split_ifs with _ _ hps
    · exact List.cons_ne_nil _ _
    · exact List.cons_ne_nil _ _
    · exact hps
    · exact List.cons_ne_nil _ _

lemma generatePath_eq (h : cs ≠ []) (ps : List Text) :
    generatePath cs ps = SLASH :: join (filled cs ps) := by
  unfold generatePath
  rw [pathLoop_eq, List.drop_zero, flatMap_slash (filled_ne_nil h ps), if_pos (by simp)]
  rw [← List.cons_append, List.dropLast_concat]

lemma filled_free (hcs : ∀ c ∈ cs, SLASH ∉ c) (hps : ∀ p ∈ ps, SLASH ∉ p) :
    ∀ x ∈ filled cs ps, SLASH ∉ x := by
  induction cs generalizing ps with
  | nil => exact fun x hx => absurd hx List.not_mem_nil
  | cons c cs ih =>
    have hrest := fun ps => @ih ps fun d hd => hcs d (List.mem_cons_of_mem _ hd)
    intro x hx
    rw [filled] at hx
    split_ifs at hx with _ _ hempty
    · rcases List.mem_cons.mp hx with rfl | hx
      · cases ps with
        | nil => exact List.not_mem_nil
        | cons p ps => exact hps p List.mem_cons_self
      · exact hrest _ (fun p hp => hps p (List.mem_of_mem_tail hp)) x hx
    · rw [List.mem_singleton.mp hx]
      exact List.not_mem_nil
    · exact hps x hx
    · rcases List.mem_cons.mp hx with rfl | hx
      · exact hcs _ List.mem_cons_self
      · exact hrest _ hps x hx

lemma filled_params (ps : List Text) :
    filled [PARAMS] ps = if ps = [] then [[]] else ps := by
  rw [filled, if_neg params_ne_param, if_pos rfl]

lemma filled_append (h : PARAMS ∉ cs) (ds ps : List Text) :
    filled (cs ++ ds) ps = filled cs ps ++ filled ds (ps.drop (cs.count PARAM)) := by
  induction cs generalizing ps with
  | nil => rfl
  | cons c cs ih =>
    rw [List.mem_cons, not_or] at h
    by_cases hc : c = PARAM
    · rw [hc, List.cons_append, filled_param, filled_param, ih h.2, List.count_cons_self,
        List.drop_tail, List.cons_append]
    · have hlit : ¬ (c = PARAM ∨ c = PARAMS) := not_or.mpr ⟨hc, fun hc => h.1 hc.symm⟩
      rw [List.cons_append, filled_literal hlit, filled_literal hlit, ih h.2,
        List.count_cons_of_ne hc, List.cons_append]

lemma length_filled (h : PARAMS ∉ cs) (ps : List Text) : (filled cs ps).length = cs.length := by
  induction cs generalizing ps with
  | nil => rfl
  | cons c cs ih =>
    rw [List.mem_cons, not_or] at h
    by_cases hc : c = PARAM
    · rw [hc, filled_param, List.length_cons, List.length_cons, ih h.2]
    · rw [filled_literal (not_or.mpr ⟨hc, fun hc => h.1 hc.symm⟩), List.length_cons,
        List.length_cons, ih h.2]

lemma getLast?_filled (h : PARAMS ∉ cs) (hcount : cs.count PARAM ≤ ps.length)
    (hps : ∀ p ∈ ps, p ≠ []) : (filled cs ps).getLast? = some [] ↔ cs.getLast? = some [] := by
  obtain rfl | ⟨cs, c, rfl⟩ := List.eq_nil_or_concat cs
  · exact Iff.rfl
  rw [List.concat_eq_append] at *
  rw [List.mem_append, List.mem_singleton, not_or] at h
  rw [filled_append h.1]
  by_cases hc : c = PARAM
  · rw [hc, List.count_append, List.count_singleton_self] at hcount
    obtain ⟨p, rest, hrest⟩ := List.exists_cons_of_length_pos
      (l := ps.drop (cs.count PARAM)) (by rw [List.length_drop]; omega)
    have hp : p ≠ [] := hps p (List.mem_of_mem_drop (hrest ▸ List.mem_cons_self))
    have hparam : PARAM ≠ [] := by decide
    rw [hc, hrest, filled_param, List.getLast?_concat, List.headD_cons, filled,
      List.getLast?_concat]
    simp [hp, hparam]
  · rw [filled_literal (not_or.mpr ⟨hc, fun hc => h.2 hc.symm⟩), filled, List.getLast?_concat,
      List.getLast?_concat]

/-! ### Taking a path apart -/

lemma erase_succ (idxs : List ℕ) (x : Text) (xs : List Text) :
    erase (idxs.map (· + 1)) (x :: xs) = x :: erase idxs xs := by
  induction idxs with
  | nil => rfl
  | cons idx idxs ih =>
    change (erase (idxs.map (· + 1)) (x :: xs)).eraseIdx (idx + 1) = _
    rw [ih]
    rfl

lemma keywords_param (cs : List Text) : keywords (PARAM :: cs) = (keywords cs).map (· + 1) := by
  rw [keywords, if_pos (.inl rfl)]

lemma keywords_literal {c : Text} (h : ¬ (c = PARAM ∨ c = PARAMS)) (cs : List Text) :
    keywords (c :: cs) = 0 :: (keywords cs).map (· + 1) := by
  rw [keywords, if_neg h]

lemma keywords_append_params (cs : List Text) : keywords (cs ++ [PARAMS]) = keywords cs := by
  induction cs with
  | nil => rfl
  | cons c cs ih => rw [List.cons_append, keywords, keywords, ih]

lemma erase_filled (h : PARAMS ∉ cs) (hcount : cs.count PARAM ≤ ps.length) (rest : List Text) :
    erase (keywords cs) (filled cs ps ++ rest) = ps.take (cs.count PARAM) ++ rest := by
  induction cs generalizing ps with
  | nil => rfl
  | cons c cs ih =>
    rw [List.mem_cons, not_or] at h
    by_cases hc : c = PARAM
    · subst hc
      rw [List.count_cons_self] at hcount ⊢
      obtain ⟨p, ps, rfl⟩ := List.exists_cons_of_length_pos (by omega : 0 < ps.length)
      rw [List.length_cons] at hcount
      rw [keywords_param, filled_param, List.cons_append, erase_succ, List.tail_cons,
        ih h.2 (by omega)]
      rfl
    · have hlit : ¬ (c = PARAM ∨ c = PARAMS) := not_or.mpr ⟨hc, fun hc => h.1 hc.symm⟩
      rw [List.count_cons_of_ne hc] at hcount ⊢
      rw [keywords_literal hlit, filled_literal hlit, List.cons_append]
      change (erase ((keywords cs).map (· + 1)) (c :: (filled cs ps ++ rest))).eraseIdx 0 = _
      rw [erase_succ, ih h.2 hcount]
      rfl

lemma getD_filled (h : PARAMS ∉ cs) (rest ds : List Text) :
    ∀ idx ∈ keywords cs, (filled cs ps ++ rest).getD idx [] = (cs ++ ds).getD idx [] := by
  induction cs generalizing ps with
  | nil => exact fun idx hidx => absurd hidx List.not_mem_nil
  | cons c cs ih =>
    rw [List.mem_cons, not_or] at h
    intro idx hidx
    by_cases hc : c = PARAM
    · rw [hc, keywords_param] at hidx
      obtain ⟨i, hi, rfl⟩ := List.mem_map.mp hidx
      rw [hc, filled_param, List.cons_append, List.cons_append, List.getD_cons_succ,
        List.getD_cons_succ]
      exact ih h.2 i hi
    · have hlit : ¬ (c = PARAM ∨ c = PARAMS) := not_or.mpr ⟨hc, fun hc => h.1 hc.symm⟩
      rw [keywords_literal hlit] at hidx
      rw [filled_literal hlit, List.cons_append, List.cons_append]
      rcases List.mem_cons.mp hidx with rfl | hidx
      · rfl
      · obtain ⟨i, hi, rfl⟩ := List.mem_map.mp hidx
        rw [List.getD_cons_succ, List.getD_cons_succ]
        exact ih h.2 i hi

lemma erase_subset (idxs : List ℕ) (xs : List Text) : ∀ x ∈ erase idxs xs, x ∈ xs := by
  induction idxs with
  | nil => exact fun x hx => hx
  | cons idx idxs ih => exact fun x hx => ih x (List.mem_of_mem_eraseIdx hx)

lemma params_of_erase {idxs : List ℕ} {xs : List Text} (h : erase idxs xs = ps)
    (hps : ∀ p ∈ ps, p ≠ []) : (if xs = [[]] then [] else erase idxs xs) = ps := by
  split_ifs with hempty
  · cases ps with
    | nil => rfl
    | cons p ps =>
      have hp : p ∈ xs := erase_subset idxs xs p (h ▸ List.mem_cons_self)
      rw [hempty, List.mem_singleton] at hp
      exact absurd hp (hps p List.mem_cons_self)
  · exact h

variable {m : HttpMethod}

/-- What `findRouting` needs of the components of a path to call the action with these arguments. -/
structure Reaches (rt : TRoute) (xs ps : List Text) : Prop where
  length : if rt.hasVariableParams then rt.componentList.length - 1 ≤ xs.length
    else xs.length = rt.componentList.length
  keywords : ∀ idx ∈ rt.keywordIndexes, xs.getD idx [] = rt.componentList.getD idx []
  params : (if xs = [[]] then [] else erase rt.keywordIndexes xs) = ps

lemma Reaches.fits {xs : List Text} (h : Reaches rt xs ps)
    (hm : rt.method = .matchAny ∨ rt.method = .only m) : fits m xs rt = true := by
  have hlength := h.length
  have hkeywords :
      (rt.keywordIndexes.all fun idx => xs.getD idx [] = rt.componentList.getD idx []) = true :=
    List.all_eq_true.mpr fun idx hidx => decide_eq_true (h.keywords idx hidx)
  have hmethod : (decide (rt.method = .matchAny) || decide (rt.method = .only m)) = true := by
    simpa using hm
  rw [UrlRoute.fits, hkeywords, hmethod]
  split_ifs at hlength ⊢ <;> simpa using hlength

lemma findRouting_first {before behind : List TRoute} {xs : List Text} (h : Reaches rt xs ps)
    (hm : rt.method = .matchAny ∨ rt.method = .only m)
    (hbefore : ∀ r ∈ before, fits m xs r = false) :
    findRouting (before ++ rt :: behind) m xs = ⟨true, rt.controller, rt.action, ps⟩ := by
  have hfind : (before ++ rt :: behind).find? (fits m xs) = some rt := by
    rw [List.find?_append, List.find?_eq_none.mpr fun r hr => by simp [hbefore r hr],
      List.find?_cons_of_pos (h.fits hm)]
    rfl
  rw [findRouting, hfind]
  dsimp only
  rw [h.params]

/-! ### There and back -/

/-- The components of a pattern do without an empty one at the end, unless it is the only one. -/
def Closed (cs : List Text) : Prop := ¬ (2 ≤ cs.length ∧ cs.getLast? = some [])

lemma reaches_fixed (hne : rt.componentList ≠ []) (hfree : ∀ c ∈ rt.componentList, SLASH ∉ c)
    (hkeywords : rt.keywordIndexes = keywords rt.componentList)
    (hvariable : rt.hasVariableParams = false) (hparams : PARAMS ∉ rt.componentList)
    (hclosed : Closed rt.componentList) (hcount : ps.length = rt.componentList.count PARAM)
    (hps : ∀ p ∈ ps, p ≠ [] ∧ SLASH ∉ p) :
    Reaches rt (splitPath (generatePath rt.componentList ps)) ps := by
  have hlast := getLast?_filled hparams hcount.ge fun p hp => (hps p hp).1
  have hlength := length_filled hparams ps
  have hkept : ¬ (2 ≤ (filled rt.componentList ps).length ∧
      (filled rt.componentList ps).getLast? = some []) := by rwa [hlength, hlast]
  have hsplit : splitPath (generatePath rt.componentList ps) = filled rt.componentList ps := by
    rw [generatePath_eq hne, splitPath_join (filled_ne_nil hne ps)
      (filled_free hfree fun p hp => (hps p hp).2), if_neg hkept]
  rw [hsplit]
  refine ⟨?_, fun idx hidx => ?_, params_of_erase ?_ fun p hp => (hps p hp).1⟩
  · rw [hvariable]
    exact hlength
  · have hkeyword : (filled rt.componentList ps ++ []).getD idx [] =
        (rt.componentList ++ []).getD idx [] :=
      getD_filled hparams [] [] idx (hkeywords ▸ hidx)
    rwa [List.append_nil, List.append_nil] at hkeyword
  · have := erase_filled hparams hcount.ge []
    rwa [List.append_nil, List.append_nil, ← hcount, List.take_length, ← hkeywords] at this

/-- The path of a pattern that ends with `:params` falls into its components and the arguments;
without any of both it is one empty component. -/
lemma splitPath_variable (hfree : ∀ c ∈ cs, SLASH ∉ c) (hparams : PARAMS ∉ cs)
    (hps : ∀ p ∈ ps, p ≠ [] ∧ SLASH ∉ p) :
    splitPath (generatePath (cs ++ [PARAMS]) ps) = filled cs ps ++ ps.drop (cs.count PARAM) ∨
      (cs = [] ∧ ps = [] ∧ splitPath (generatePath (cs ++ [PARAMS]) ps) = [[]]) := by
  have hne : cs ++ [PARAMS] ≠ [] := List.append_ne_nil_of_right_ne_nil _ (List.cons_ne_nil _ _)
  have hslash : SLASH ∉ PARAMS := by decide
  have hfree' : ∀ c ∈ cs ++ [PARAMS], SLASH ∉ c := fun c hc =>
    (List.mem_append.mp hc).elim (hfree c) fun hc => List.mem_singleton.mp hc ▸ hslash
  rw [generatePath_eq hne, splitPath_join (filled_ne_nil hne ps)
    (filled_free hfree' fun p hp => (hps p hp).2), filled_append hparams, filled_params]
  by_cases hrest : ps.drop (cs.count PARAM) = []
  · rw [if_pos hrest, hrest]
    cases cs with
    | nil => exact .inr ⟨rfl, hrest, rfl⟩
    | cons c cs =>
      have hlength : (filled (c :: cs) ps).length = cs.length + 1 := length_filled hparams ps
      left
      rw [if_pos ⟨by rw [List.length_append, hlength, List.length_singleton]; omega,
        List.getLast?_concat⟩, List.dropLast_concat, List.append_nil]
  · left
    rw [if_neg hrest, if_neg]
    rintro ⟨-, hlast⟩
    obtain ⟨front, p, hp⟩ := (List.eq_nil_or_concat _).resolve_left hrest
    rw [hp, List.concat_eq_append, ← List.append_assoc, List.getLast?_concat,
      Option.some.injEq] at hlast
    have hmem : p ∈ ps := List.mem_of_mem_drop (i := cs.count PARAM) (by rw [hp]; simp)
    exact (hps p hmem).1 hlast

lemma reaches_variable (hcomponents : rt.componentList = cs ++ [PARAMS])
    (hfree : ∀ c ∈ cs, SLASH ∉ c) (hkeywords : rt.keywordIndexes = keywords rt.componentList)
    (hvariable : rt.hasVariableParams = true) (hparams : PARAMS ∉ cs)
    (hcount : cs.count PARAM ≤ ps.length) (hps : ∀ p ∈ ps, p ≠ [] ∧ SLASH ∉ p) :
    Reaches rt (splitPath (generatePath rt.componentList ps)) ps := by
  rw [hcomponents, keywords_append_params] at hkeywords
  rcases splitPath_variable hfree hparams hps with hsplit | ⟨rfl, rfl, hsplit⟩
  · rw [hcomponents, hsplit]
    refine ⟨?_, fun idx hidx => ?_, params_of_erase ?_ fun p hp => (hps p hp).1⟩
    · rw [hvariable, if_pos rfl, hcomponents, List.length_append, List.length_append,
        length_filled hparams, List.length_singleton]
      omega
    · rw [hcomponents]
      exact getD_filled hparams _ _ idx (hkeywords ▸ hidx)
    · rw [hkeywords, erase_filled hparams hcount, List.take_append_drop]
  · rw [hcomponents, hsplit]
    refine ⟨?_, fun idx hidx => ?_, rfl⟩
    · rw [hvariable, if_pos rfl, hcomponents]
      exact Nat.zero_le _
    · rw [hkeywords] at hidx
      exact absurd hidx List.not_mem_nil

/-- From the search for the path of an action to the search for the route of this path. `before`
and `behind` are the other lines of the configuration. -/
def RoundTrips (u : Unicode) (line : Text) (rt : TRoute) (controller action : Text) : Prop :=
  ∀ (before behind : List Text) (controller' action' : Text) (ps : List Text),
    (∀ r ∈ table u before, ¬ (r.controller = rt.controller ∧ r.action = rt.action)) →
    u.toLower controller' = u.toLower controller → u.toLower action' = u.toLower action →
    (∀ p ∈ ps, p ≠ [] ∧ SLASH ∉ p) → admits rt ps.length = true →
      findUrl u (table u (before ++ line :: behind)) controller' action' ps ≠ [] ∧
      ∀ m, rt.method = .matchAny ∨ rt.method = .only m →
        (∀ r ∈ table u before, fits m (splitPath (findUrl u (table u (before ++ line :: behind))
          controller' action' ps)) r = false) →
        findRouting (table u (before ++ line :: behind)) m (splitPath (findUrl u
          (table u (before ++ line :: behind)) controller' action' ps)) =
            ⟨true, rt.controller, rt.action, ps⟩

/-- The action is stored as `findUrl` looks for it. -/
def Lower (u : Unicode) (action : Text) : Prop :=
  u.toLatin1 (u.toLower action) = u.toLatin1 action

variable {controller action : Text}

lemma Parsed.components_ne_nil (h : Parsed u controller action rt) : rt.componentList ≠ [] := by
  obtain ⟨path, hpath⟩ := h.components
  exact hpath ▸ LexicalPath.components_ne_nil _

lemma Parsed.free (h : Parsed u controller action rt) : ∀ c ∈ rt.componentList, SLASH ∉ c := by
  obtain ⟨path, hpath⟩ := h.components
  exact fun c hc => not_mem_of_mem_components (hpath ▸ hc : c ∈ splitPath path)

lemma Parsed.reaches (h : Parsed u controller action rt)
    (htrailing : PARAMS ∉ rt.componentList.dropLast) (hclosed : Closed rt.componentList)
    (hadmits : admits rt ps.length = true) (hps : ∀ p ∈ ps, p ≠ [] ∧ SLASH ∉ p) :
    Reaches rt (splitPath (generatePath rt.componentList ps)) ps := by
  rw [admits, h.paramNum] at hadmits
  by_cases hvariable : rt.hasVariableParams = true
  · obtain ⟨cs, c, hcs⟩ := (List.eq_nil_or_concat _).resolve_left h.components_ne_nil
    rw [List.concat_eq_append] at hcs
    rw [hcs, List.dropLast_concat] at htrailing
    have hc : PARAMS = c := by
      have hmem : PARAMS ∈ rt.componentList := by
        simpa [h.hasVariableParams] using hvariable
      rw [hcs, List.mem_append, List.mem_singleton] at hmem
      exact hmem.resolve_left htrailing
    subst hc
    refine reaches_variable hcs (fun c hc => h.free c ?_) h.keywords hvariable htrailing ?_ hps
    · rw [hcs]
      exact List.mem_append_left _ hc
    · have hcount : (cs ++ [PARAMS]).count PARAM = cs.count PARAM := by
        rw [List.count_append, List.count_singleton, if_neg (by decide), Nat.add_zero]
      rw [hcs, hcount] at hadmits
      simpa [hvariable] using hadmits
  · rw [Bool.not_eq_true] at hvariable
    refine reaches_fixed h.components_ne_nil h.free h.keywords hvariable ?_ hclosed ?_ hps
    · have := h.hasVariableParams.symm.trans hvariable
      simpa using this
    · simpa [hvariable, eq_comm] using hadmits

lemma Parsed.findUrl (h : Parsed u controller action rt) (hlower : Lower u action)
    {before behind : List TRoute} {controller' action' : Text}
    (hfirst : ∀ r ∈ before, ¬ (r.controller = rt.controller ∧ r.action = rt.action))
    (hcontroller : u.toLower controller' = u.toLower controller)
    (haction : u.toLower action' = u.toLower action) (hadmits : admits rt ps.length = true) :
    findUrl u (before ++ rt :: behind) controller' action' ps =
      generatePath rt.componentList ps := by
  have hstored : u.toLatin1 (u.toLower action') = rt.action := by
    rw [haction, h.action]
    exact hlower
  have hctrl : u.toLatin1 (u.toLower controller') ++ ascii "controller" = rt.controller := by
    rw [hcontroller, h.controller]
  rw [UrlRoute.findUrl, hstored, hctrl, List.find?_append, List.find?_eq_none.mpr,
    List.find?_cons_of_pos]
  · rfl
  · simpa using hadmits
  · intro r hr
    have := hfirst r hr
    simp only [Bool.and_eq_true, decide_eq_true_eq]
    tauto

lemma roundTrips_of_lower (h : parseRoute u line = some rt)
    (hparsed : Parsed u controller action rt) (htrailing : PARAMS ∉ rt.componentList.dropLast)
    (hlower : Lower u action) (hclosed : Closed rt.componentList) :
    RoundTrips u line rt controller action := by
  intro before behind controller' action' ps hfirst hcontroller haction hps hadmits
  rw [table_append h, hparsed.findUrl hlower hfirst hcontroller haction hadmits]
  refine ⟨?_, fun m hm hbefore => ?_⟩
  · rw [generatePath_eq hparsed.components_ne_nil]
    exact List.cons_ne_nil _ _
  · exact findRouting_first (hparsed.reaches htrailing hclosed hadmits hps) hm hbefore

/-- Arguments for each parameter of a pattern. -/
def sample (rt : TRoute) : List Text := List.replicate rt.paramNum (text "x")

lemma mem_sample : ∀ p ∈ sample rt, p ≠ [] ∧ SLASH ∉ p := by
  intro p hp
  rw [List.eq_of_mem_replicate hp]
  decide

lemma admits_sample (rt : TRoute) : admits rt (sample rt).length = true := by
  rw [admits, sample, List.length_replicate]
  cases rt.hasVariableParams <;> simp

lemma lower_of_roundTrips (h : parseRoute u line = some rt)
    (hparsed : Parsed u controller action rt) (hround : RoundTrips u line rt controller action) :
    Lower u action := by
  obtain ⟨hurl, -⟩ := hround [] [] controller action (sample rt) (fun r hr => by cases hr) rfl rfl
    mem_sample (admits_sample rt)
  by_contra hlower
  apply hurl
  have hnone : ∀ r ∈ table u [] ++ rt :: table u [],
      ¬ (r.controller = u.toLatin1 (u.toLower controller) ++ ascii "controller" &&
        r.action = u.toLatin1 (u.toLower action) && admits r (sample rt).length) = true := by
    intro r hr
    obtain rfl := List.mem_singleton.mp hr
    simp only [Bool.and_eq_true, decide_eq_true_eq, hparsed.action]
    exact fun hr => hlower hr.1.2.symm
  rw [table_append h, UrlRoute.findUrl, List.find?_eq_none.mpr hnone]

lemma closed_of_roundTrips (h : parseRoute u line = some rt)
    (hparsed : Parsed u controller action rt) (htrailing : PARAMS ∉ rt.componentList.dropLast)
    (hround : RoundTrips u line rt controller action) : Closed rt.componentList := by
  have hlower := lower_of_roundTrips h hparsed hround
  obtain ⟨m, hm⟩ : ∃ m, rt.method = .matchAny ∨ rt.method = .only m := by
    rcases hparsed.method with hany | ⟨m, hm⟩
    · exact ⟨.get, .inl hany⟩
    · exact ⟨m, .inr hm⟩
  obtain ⟨-, hrouting⟩ := hround [] [] controller action (sample rt) (fun r hr => by cases hr) rfl
    rfl mem_sample (admits_sample rt)
  have hfound := hrouting m hm fun r hr => by cases hr
  rintro ⟨hlength, hlast⟩
  have hparams : PARAMS ∉ rt.componentList := by
    obtain ⟨cs, hcs⟩ := List.getLast?_eq_some_iff.mp hlast
    rw [hcs, List.dropLast_concat] at htrailing
    rw [hcs, List.mem_append, not_or]
    exact ⟨htrailing, by decide⟩
  have hvariable : rt.hasVariableParams = false := by
    rw [hparsed.hasVariableParams]
    simpa using hparams
  have hfilled : (filled rt.componentList (sample rt)).length = rt.componentList.length :=
    length_filled hparams _
  have hcount : rt.componentList.count PARAM ≤ (sample rt).length := by
    rw [sample, List.length_replicate, hparsed.paramNum]
  have hsplit : splitPath (generatePath rt.componentList (sample rt)) =
      (filled rt.componentList (sample rt)).dropLast := by
    rw [generatePath_eq hparsed.components_ne_nil,
      splitPath_join (filled_ne_nil hparsed.components_ne_nil _)
        (filled_free hparsed.free fun p hp => (mem_sample p hp).2), if_pos]
    exact ⟨hfilled ▸ hlength,
      (getLast?_filled hparams hcount fun p hp => (mem_sample p hp).1).mpr hlast⟩
  have hfits : fits m (splitPath (generatePath rt.componentList (sample rt))) rt = false := by
    rw [fits, hvariable, if_neg Bool.false_ne_true, hsplit, List.length_dropLast, hfilled,
      decide_eq_false (by omega), Bool.false_and, Bool.false_and]
  rw [table_append h, hparsed.findUrl hlower (fun r hr => by cases hr) rfl rfl (admits_sample rt),
    findRouting, List.find?_eq_none.mpr] at hfound
  · cases hfound
  · intro r hr
    obtain rfl := List.mem_singleton.mp hr
    rw [hfits]
    exact Bool.false_ne_true

/-- **Generating and routing agree** for the routes whose action is stored in lower case and whose
pattern does not end with an empty component behind others, and for no other ones. -/
theorem roundTrips_iff (h : parseRoute u line = some rt)
    (hnames : names u line = some (controller, action))
    (htrailing : PARAMS ∉ rt.componentList.dropLast) :
    RoundTrips u line rt controller action ↔ Lower u action ∧ Closed rt.componentList := by
  have hparsed := parsed_of_names h hnames
  constructor
  · intro hround
    exact ⟨lower_of_roundTrips h hparsed hround,
      closed_of_roundTrips h hparsed htrailing hround⟩
  · rintro ⟨hlower, hclosed⟩
    exact roundTrips_of_lower h hparsed htrailing hlower hclosed

/-- `QString` on texts of Latin-1 characters. -/
def latin : Unicode where
  isSpace c := c = 32 || (9 ≤ c && c ≤ 13) || c = 133 || c = 160
  toLower t := t.map fun c => if c < 256 then (lower c.toUInt8).toUInt16 else c
  toLatin1 t := t.map fun c => if c < 256 then c.toUInt8 else 63
  toUtf8 t := t.flatMap fun c =>
    (if c < 128 then [c] else [192 + c / 64, 128 + c % 64]).map UInt16.toUInt8

/-- The route of an item. -/
def item : TRoute where
  method := .matchAny
  componentList := [text "items", PARAM]
  keywordIndexes := [0]
  controller := ascii "itemcontroller"
  action := ascii "show"
  paramNum := 1
  hasVariableParams := false

theorem roundTrips_iff_item :
    RoundTrips latin (text "match /items/:param Item#show") item (text "Item") (text "show") ↔
      Lower latin (text "show") ∧ Closed item.componentList :=
  roundTrips_iff (by decide) (by decide) (by decide)

/-- **The path of an action in mixed case** is not found. -/
theorem not_roundTrips_mixedCase :
    ∃ rt, parseRoute latin (text "match /items/:param Item#showItem") = some rt ∧
      names latin (text "match /items/:param Item#showItem") =
        some (text "Item", text "showItem") ∧
      PARAMS ∉ rt.componentList.dropLast ∧
      ¬ RoundTrips latin (text "match /items/:param Item#showItem") rt (text "Item")
        (text "showItem") := by
  refine ⟨{ item with action := ascii "showItem" }, by decide, by decide, by decide, ?_⟩
  intro hround
  have hurl := (hround [] [] (text "Item") (text "showItem") [text "5"] (fun r hr => by cases hr)
    rfl rfl (List.forall_mem_singleton.mpr (by decide)) rfl).1
  exact hurl (by decide)

end TreeFrog.UrlRoute
