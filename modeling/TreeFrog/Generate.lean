import Mathlib.Logic.Relation
import TreeFrog.RequestHeader

/-!
Cutting a byte array into requests.

The loop of `generate` goes from header block to header block; the position behind a request
is the end of its block plus its declared length, taken as a 32-bit `int`. The loop has no
bound of its own, so it is run with fuel, and `none` says that the fuel has run out.
-/

namespace TreeFrog.Generate

open TreeFrog.Bytes TreeFrog.MessageHeader TreeFrog.RequestHeader

/-- A request. What the constructors compute from the body is left out: it is a function of
the fields kept here. -/
structure THttpRequest (QHostAddress : Type) where
  header : THttpRequestHeader
  bodyArray : QByteArray
  /-- The content of the file that is given to the multipart parser. -/
  bodyFile : Option QByteArray
  clientAddress : QHostAddress
  deriving DecidableEq

variable {QHostAddress : Type}

/-- The constructor with a header and a body. -/
def THttpRequest.ofBody (header : THttpRequestHeader) (body : QByteArray)
    (address : QHostAddress) : THttpRequest QHostAddress := ⟨header, body, none, address⟩

/-- The constructor that parses the header and is given a file. -/
def THttpRequest.ofFile (header file : QByteArray) (address : QHostAddress) :
    THttpRequest QHostAddress := ⟨THttpRequestHeader.ofBytes header, [], some file, address⟩

/-- `indexOf` from a signed position; a negative one counts from the end. -/
def indexOfInt (b n : QByteArray) (pos : ℤ) : Option ℕ :=
  if 0 ≤ pos then indexOf b n pos.toNat
  else if pos + b.length + n.length < 0 then none
  else indexOf b n (pos + b.length).toNat

/-- `mid` from a signed position; a negative one gives the whole array. -/
def midInt (b : QByteArray) (pos : ℤ) : QByteArray := b.drop pos.toNat

/-- One turn of the loop from position `pos`: the request, and the next position. -/
def generateStep (byteArray : QByteArray) (address : QHostAddress) (pos : ℤ) :
    Option (THttpRequest QHostAddress × ℤ) :=
  match indexOfInt byteArray CRLFCRLF pos with
  | none => none
  | some i =>
    -- an index of zero ends the loop as well
    if i = 0 then none
    else
      let headidx := i + 4
      let header := THttpRequestHeader.ofBytes (midInt byteArray pos)
      let contlen := narrow header.contentLength
      let body := if contlen ≤ 0 then [] else (byteArray.drop headidx).take contlen.toNat
      some (.ofBody header body address, narrow (headidx + contlen))

def generateLoop (byteArray : QByteArray) (address : QHostAddress) :
    ℕ → ℤ → List (THttpRequest QHostAddress) → Option (List (THttpRequest QHostAddress))
  | 0, _, _ => none
  | fuel + 1, pos, reqList =>
    match generateStep byteArray address pos with
    | none => some reqList
    | some (req, next) => generateLoop byteArray address fuel next (reqList ++ [req])

def generate (fuel : ℕ) (byteArray : QByteArray) (address : QHostAddress) :
    Option (List (THttpRequest QHostAddress)) := generateLoop byteArray address fuel 0 []

variable {b : QByteArray} {a : QHostAddress}

lemma generateLoop_acc (fuel : ℕ) (pos : ℤ) (rs : List (THttpRequest QHostAddress)) :
    generateLoop b a fuel pos rs = (generateLoop b a fuel pos []).map (rs ++ ·) := by
  induction fuel generalizing pos rs with
  | zero => rfl
  | succ fuel ih =>
    rw [generateLoop, generateLoop]
    cases generateStep b a pos with
    | none => simp
    | some r =>
      obtain ⟨req, next⟩ := r
      simp only
      rw [ih next (rs ++ [req]), ih next ([] ++ [req]), Option.map_map]
      simp [Function.comp_def]

/-! ### One turn at a position inside the array -/

/-- The header block that the turn at `p` finds ends before `e`. -/
def BlockAt (b : QByteArray) (p e : ℕ) : Prop :=
  ∃ i, 0 < i ∧ indexOf b CRLFCRLF p = some i ∧ e = i + 4

/-- No header block is found at `p`. -/
def NoBlockAt (b : QByteArray) (p : ℕ) : Prop := ∀ e, ¬ BlockAt b p e

/-- The header read at `p`. -/
def headerAt (b : QByteArray) (p : ℕ) : THttpRequestHeader := THttpRequestHeader.ofBytes (b.drop p)

/-- The length declared by the header read at `p`. -/
def declared (b : QByteArray) (p : ℕ) : ℕ := (headerAt b p).contentLength

lemma declared_lt (b : QByteArray) (p : ℕ) : declared b p < 2 ^ 32 :=
  TInternetMessageHeader.contentLength_lt _

lemma BlockAt.le_length {p e : ℕ} (h : BlockAt b p e) : p + 4 ≤ e ∧ 5 ≤ e ∧ e ≤ b.length := by
  obtain ⟨i, hi, hidx, rfl⟩ := h
  have := indexOf_add_length_le (by decide) hidx
  simp only [CRLFCRLF, List.length_cons, List.length_nil] at this
  omega

lemma BlockAt.unique {p e e' : ℕ} (h : BlockAt b p e) (h' : BlockAt b p e') : e = e' := by
  obtain ⟨i, -, hi, rfl⟩ := h
  obtain ⟨i', -, hi', rfl⟩ := h'
  rw [hi, Option.some.injEq] at hi'
  rw [hi']

/-- The body that the turn at `p` cuts out behind the block. -/
def bodyAt (b : QByteArray) (p e : ℕ) : QByteArray :=
  if narrow (declared b p) ≤ 0 then [] else (b.drop e).take (narrow (declared b p)).toNat

lemma generateStep_noBlock {p : ℕ} (h : NoBlockAt b p) : generateStep b a p = none := by
  unfold generateStep indexOfInt
  rw [if_pos (Int.natCast_nonneg p), Int.toNat_natCast]
  cases hi : indexOf b CRLFCRLF p with
  | none => rfl
  | some i =>
    by_cases h0 : i = 0
    · simp [h0]
    · exact absurd ⟨i, by omega, hi, rfl⟩ (h (i + 4))

/-- **One turn**: the request of the header at `p`, and the position behind its body. -/
lemma generateStep_block {p e : ℕ} (h : BlockAt b p e) :
    generateStep b a p =
      some (.ofBody (headerAt b p) (bodyAt b p e) a, narrow (e + narrow (declared b p))) := by
  obtain ⟨i, hi, hidx, rfl⟩ := h
  unfold generateStep indexOfInt midInt
  rw [if_pos (Int.natCast_nonneg p), Int.toNat_natCast, hidx]
  simp only [if_neg (show ¬ i = 0 by omega)]
  rfl

lemma block_or_not (b : QByteArray) (p : ℕ) : NoBlockAt b p ∨ ∃ e, BlockAt b p e := by
  by_cases h : ∃ e, BlockAt b p e
  · exact Or.inr h
  · exact Or.inl fun e he => h ⟨e, he⟩

lemma generateLoop_noBlock {fuel p : ℕ} (h : NoBlockAt b p) :
    generateLoop b a (fuel + 1) p [] = some [] := by
  rw [generateLoop, generateStep_noBlock h]

lemma generateLoop_block {fuel p e : ℕ} (h : BlockAt b p e) (hlt : e + declared b p < 2 ^ 31) :
    generateLoop b a (fuel + 1) p [] =
      (generateLoop b a fuel (e + declared b p : ℕ) []).map
        (THttpRequest.ofBody (headerAt b p) ((b.drop e).take (declared b p)) a :: ·) := by
  have hn : narrow (declared b p) = declared b p := narrow_of_lt (by omega) (by omega)
  have hbody : bodyAt b p e = (b.drop e).take (declared b p) := by
    unfold bodyAt
    rw [hn, Int.toNat_natCast]
    split_ifs with h0
    · rw [show declared b p = 0 by omega, List.take_zero]
    · rfl
  rw [generateLoop, generateStep_block h, hn, narrow_of_lt (by omega) (by omega), hbody]
  simp only [List.nil_append]
  rw [generateLoop_acc]
  push_cast
  rfl

/-! ### Does the loop go forward? -/

/-- A turn of the loop takes the position `s` to `s'`. -/
def Moves (b : QByteArray) (a : QHostAddress) (s s' : ℤ) : Prop :=
  ∃ req, generateStep b a s = some (req, s')

/-- Every turn reached from `s` moves forward and stays non-negative. -/
def ForwardFrom (b : QByteArray) (a : QHostAddress) (s : ℤ) : Prop :=
  ∀ t t', Relation.ReflTransGen (Moves b a) s t → Moves b a t t' → t < t' ∧ 0 ≤ t'

/-- The loop ends from `s`. -/
def EndsFrom (b : QByteArray) (a : QHostAddress) (s : ℤ) : Prop :=
  ∃ fuel, (generateLoop b a fuel s []).isSome

/-- The declared lengths never lead backwards: a body ends within the range of an `int`, or
so far beyond it that the 32-bit sum lies ahead again. -/
inductive Advancing (b : QByteArray) : ℕ → Prop
  | stop {p : ℕ} (h : NoBlockAt b p) : Advancing b p
  | next {p e : ℕ} (h : BlockAt b p e)
      (hn : e + declared b p < 2 ^ 31 ∨ p + 2 ^ 32 < e + declared b p)
      (hq : Advancing b ((e + declared b p) % 2 ^ 32)) : Advancing b p

lemma moves_block {p e : ℕ} (h : BlockAt b p e) {s : ℤ} :
    Moves b a p s ↔ s = narrow (e + narrow (declared b p)) := by
  unfold Moves
  rw [generateStep_block h]
  simp [eq_comm]

lemma not_moves {p : ℕ} (h : NoBlockAt b p) {s : ℤ} : ¬ Moves b a p s := by
  rintro ⟨req, hreq⟩
  rw [generateStep_noBlock h] at hreq
  cases hreq

/-- **The step of the position**: it moves forward and stays non-negative exactly when the
end of the body, taken modulo `2 ^ 32`, does. -/
lemma narrow_forward_iff {p e n : ℕ} (hp : p + 4 ≤ e) (he : e < 2 ^ 31) (hn : n < 2 ^ 32) :
    ((p : ℤ) < narrow (e + narrow n) ∧ 0 ≤ narrow (e + narrow n)) ↔
      e + n < 2 ^ 31 ∨ p + 2 ^ 32 < e + n := by
  unfold narrow; omega

lemma narrow_forward_eq {p e n : ℕ} (he : e < 2 ^ 31) (hn : n < 2 ^ 32)
    (h : e + n < 2 ^ 31 ∨ p + 2 ^ 32 < e + n) :
    narrow (e + narrow n) = ((e + n) % 2 ^ 32 : ℕ) := by
  unfold narrow; omega

lemma Advancing.forward {p : ℕ} (hb : b.length < 2 ^ 31) (h : Advancing b p) :
    EndsFrom b a p ∧ ForwardFrom b a p := by
  induction h with
  | stop h =>
    refine ⟨⟨1, by rw [generateLoop_noBlock h]; rfl⟩, fun t t' ht hm => ?_⟩
    rcases ht.cases_head with rfl | ⟨u, hu, -⟩
    · exact absurd hm (not_moves h)
    · exact absurd hu (not_moves h)
  | @next p e h hn hq ih =>
    have hle := h.le_length
    have hdecl := declared_lt b p
    have hstep := narrow_forward_eq (by omega) hdecl hn
    obtain ⟨⟨fuel, hfuel⟩, hforward⟩ := ih
    constructor
    · refine ⟨fuel + 1, ?_⟩
      rw [generateLoop, generateStep_block h, hstep]
      simp only
      rw [generateLoop_acc, Option.isSome_map]
      exact hfuel
    · intro t t' ht hm
      rcases ht.cases_head with rfl | ⟨u, hu, hrest⟩
      · rw [(moves_block h).mp hm]
        exact (narrow_forward_iff hle.1 (by omega) hdecl).mpr hn
      · rw [(moves_block h).mp hu, hstep] at hrest
        exact hforward t t' hrest hm

lemma ForwardFrom.advancing (hb : b.length < 2 ^ 31) {p : ℕ} (hp : p < 2 ^ 31)
    (h : ForwardFrom b a p) : Advancing b p := by
  induction hk : 2 ^ 31 - p using Nat.strong_induction_on generalizing p with
  | _ k ih =>
    rcases block_or_not b p with hno | ⟨e, he⟩
    · exact .stop hno
    have hle := he.le_length
    have hdecl := declared_lt b p
    have hm : Moves b a p (narrow (e + narrow (declared b p))) := (moves_block he).mpr rfl
    have hn := (narrow_forward_iff hle.1 (by omega) hdecl).mp (h _ _ .refl hm)
    have hstep := narrow_forward_eq (by omega) hdecl hn
    rw [hstep] at hm
    refine .next he hn (ih _ ?_ ?_ (fun t t' ht => h t t' (.head hm ht)) rfl)
    · omega
    · omega

/-- **When the loop is safe**: it ends and every turn moves forward exactly when no declared
length leads back. -/
theorem generate_forward_iff (b : QByteArray) (a : QHostAddress) (hb : b.length < 2 ^ 31) :
    ((∃ fuel reqs, generate fuel b a = some reqs) ∧ ForwardFrom b a 0) ↔ Advancing b 0 := by
  have hends : (∃ fuel reqs, generate fuel b a = some reqs) ↔ EndsFrom b a 0 := by
    simp only [generate, EndsFrom, Option.isSome_iff_exists]
  rw [hends]
  constructor
  · rintro ⟨-, h⟩
    exact ForwardFrom.advancing hb (by decide) h
  · exact fun h => h.forward hb

lemma noBlockAt_of_none {p : ℕ} (h : indexOf b CRLFCRLF p = none) : NoBlockAt b p := by
  rintro e ⟨i, -, hi, -⟩
  rw [h] at hi
  cases hi

/-- A request with a body of two bytes, and one without. -/
def twoRequests : QByteArray :=
  ascii "POST / HTTP/1.1\r\nContent-Length: 2\r\n\r\nabGET / HTTP/1.1\r\nA: b\r\n\r\n"

-- One evaluation for all of them: the text is long.
lemma twoRequests_read :
    twoRequests.length < 2 ^ 31 ∧
      (indexOf twoRequests CRLFCRLF 0 = some 34 ∧ declared twoRequests 0 = 2) ∧
      (indexOf twoRequests CRLFCRLF 40 = some 60 ∧ declared twoRequests 40 = 0) ∧
      indexOf twoRequests CRLFCRLF 64 = none := by decide +kernel

lemma length_twoRequests : twoRequests.length < 2 ^ 31 := twoRequests_read.1

lemma blockAt_first : BlockAt twoRequests 0 38 := ⟨34, by decide, twoRequests_read.2.1.1, rfl⟩

lemma declared_first : declared twoRequests 0 = 2 := twoRequests_read.2.1.2

lemma blockAt_second : BlockAt twoRequests 40 64 := ⟨60, by decide, twoRequests_read.2.2.1.1, rfl⟩

lemma declared_second : declared twoRequests 40 = 0 := twoRequests_read.2.2.1.2

lemma noBlockAt_end : NoBlockAt twoRequests 64 := noBlockAt_of_none twoRequests_read.2.2.2

theorem generate_forward_iff_two :
    (∃ fuel reqs, generate fuel twoRequests () = some reqs) ∧ ForwardFrom twoRequests () 0 := by
  refine (generate_forward_iff twoRequests () length_twoRequests).mpr ?_
  refine .next blockAt_first (by rw [declared_first]; decide) ?_
  rw [declared_first]
  change Advancing twoRequests 40
  refine .next blockAt_second (by rw [declared_second]; decide) ?_
  rw [declared_second]
  exact .stop noBlockAt_end

/-- A declared length of `2 ^ 32` less the length of the header. -/
def standstill : QByteArray := ascii "POST / HTTP/1.1\r\nContent-Length: 4294967249\r\n\r\n"

lemma standstill_read :
    standstill.length < 2 ^ 31 ∧ (generateStep standstill () 0).map Prod.snd = some 0 := by
  decide +kernel

lemma generateStep_standstill : ∃ req, generateStep standstill () 0 = some (req, 0) := by
  obtain ⟨r, hr, hr0⟩ := Option.map_eq_some_iff.mp standstill_read.2
  exact ⟨r.1, by rw [hr, ← hr0]⟩

/-- The loop reads the same header for ever. -/
lemma not_endsFrom_standstill : ¬ EndsFrom standstill () 0 := by
  rintro ⟨fuel, hfuel⟩
  obtain ⟨req, hreq⟩ := generateStep_standstill
  induction fuel with
  | zero => simp [generateLoop] at hfuel
  | succ fuel ih =>
    rw [generateLoop, hreq] at hfuel
    simp only at hfuel
    rw [generateLoop_acc, Option.isSome_map] at hfuel
    exact ih hfuel

theorem generate_standstill :
    ¬ ∀ b : QByteArray, b.length < 2 ^ 31 →
      (∃ fuel reqs, generate fuel b () = some reqs) ∧ ForwardFrom b () 0 := by
  intro h
  obtain ⟨⟨fuel, reqs, hreqs⟩, -⟩ := h standstill standstill_read.1
  exact not_endsFrom_standstill ⟨fuel, by rw [generate] at hreqs; rw [hreqs]; rfl⟩

/-! ### Are the bodies complete? -/

/-- Every request has arrived whole: behind every header block there are at least as many
bytes as its header declares, and the next request begins behind them. -/
inductive Whole (b : QByteArray) : ℕ → Prop
  | stop {p : ℕ} (h : NoBlockAt b p) : Whole b p
  | next {p e : ℕ} (h : BlockAt b p e) (hn : e + declared b p ≤ b.length)
      (hq : Whole b (e + declared b p)) : Whole b p

/-- The body has the declared length. -/
def Full (r : THttpRequest QHostAddress) : Prop :=
  r.bodyArray.length = r.header.contentLength

@[simp] lemma full_ofBody (h : THttpRequestHeader) (body : QByteArray) :
    Full (.ofBody h body a) ↔ body.length = h.contentLength := Iff.rfl

/-- **The step of a body**: it is full exactly when enough bytes follow its header. -/
lemma full_iff {p e : ℕ} (hb : b.length < 2 ^ 31) (h : BlockAt b p e) :
    Full (.ofBody (headerAt b p) (bodyAt b p e) a) ↔ e + declared b p ≤ b.length := by
  have hle := h.le_length
  have hdecl := declared_lt b p
  rw [full_ofBody, ← declared, bodyAt]
  split_ifs with h0
  · -- nothing is cut out: only a length of zero is met
    rw [List.length_nil]
    rcases Nat.lt_or_ge (declared b p) (2 ^ 31) with hlt | hge
    · rw [narrow_of_lt (by omega) (by omega)] at h0
      omega
    · omega
  · rcases Nat.lt_or_ge (declared b p) (2 ^ 31) with hlt | hge
    · rw [narrow_of_lt (by omega) (by omega), Int.toNat_natCast, List.length_take,
        List.length_drop]
      omega
    · rw [narrow_of_ge (by omega) (by omega)] at h0
      omega

/-- **When no truncated request is returned**: all bodies have their declared length exactly
when every request of the array has arrived whole. -/
theorem generate_full_iff (fuel : ℕ) (b : QByteArray) (a : QHostAddress)
    {reqs : List (THttpRequest QHostAddress)} (hb : b.length < 2 ^ 31)
    (h : generate fuel b a = some reqs) :
    (∀ r ∈ reqs, Full r) ↔ Whole b 0 := by
  -- the loop is followed from any position `p`
  suffices hrun : ∀ p : ℕ, generateLoop b a fuel p [] = some reqs →
      ((∀ r ∈ reqs, Full r) ↔ Whole b p) from hrun 0 h
  clear h
  intro p h
  induction fuel generalizing p reqs with
  | zero => simp [generateLoop] at h
  | succ fuel ih =>
    rcases block_or_not b p with hno | ⟨e, he⟩
    · rw [generateLoop_noBlock hno, Option.some.injEq] at h
      subst h
      exact iff_of_true (by simp) (.stop hno)
    have hfull := full_iff (a := a) hb he
    rw [generateLoop, generateStep_block he] at h
    simp only [List.nil_append] at h
    rw [generateLoop_acc] at h
    obtain ⟨rs, hrs, rfl⟩ := Option.map_eq_some_iff.mp h
    rw [List.singleton_append, List.forall_mem_cons, hfull]
    constructor
    · rintro ⟨hn, hrest⟩
      rw [narrow_of_lt (n := declared b p) (by omega) (by omega),
        narrow_of_lt (by omega) (by omega)] at hrs
      exact .next he hn ((ih (e + declared b p) (by exact_mod_cast hrs)).mp hrest)
    · rintro (hno | ⟨he', hn, hq⟩)
      · exact absurd he (hno e)
      · rw [← he.unique he'] at hn hq
        rw [narrow_of_lt (n := declared b p) (by omega) (by omega),
          narrow_of_lt (by omega) (by omega)] at hrs
        exact ⟨hn, (ih (e + declared b p) (by exact_mod_cast hrs)).mpr hq⟩

theorem generate_full_iff_two :
    Full (.ofBody (headerAt twoRequests 0) (ascii "ab") ()) ∧
      Full (.ofBody (headerAt twoRequests 40) [] ()) := by
  have hreqs : generate 3 twoRequests () = some [.ofBody (headerAt twoRequests 0) (ascii "ab") (),
      .ofBody (headerAt twoRequests 40) [] ()] := by decide +kernel
  have hfull := (generate_full_iff 3 twoRequests () length_twoRequests hreqs).mpr <| by
    refine .next blockAt_first (by rw [declared_first]; decide) ?_
    rw [declared_first]
    refine .next blockAt_second (by rw [declared_second]; decide) ?_
    rw [declared_second]
    exact .stop noBlockAt_end
  exact ⟨hfull _ (List.mem_cons_self ..), hfull _ (List.mem_cons_of_mem _ (List.mem_cons_self ..))⟩

/-- The second request is returned with two of its five bytes. -/
theorem generate_truncated :
    ¬ ∀ (fuel : ℕ) (b : QByteArray) (reqs : List (THttpRequest Unit)), b.length < 2 ^ 31 →
      generate fuel b () = some reqs → ∀ r ∈ reqs, Full r := by
  intro h
  let b := ascii "GET / HTTP/1.1\r\nA: b\r\n\r\nPOST / HTTP/1.1\r\nContent-Length: 5\r\n\r\nab"
  obtain ⟨hlength, hreqs, hshort⟩ : b.length < 2 ^ 31 ∧ generate 3 b () =
      some [.ofBody (headerAt b 0) [] (), .ofBody (headerAt b 24) (ascii "ab") ()] ∧
      ¬ (ascii "ab").length = (headerAt b 24).contentLength := by
    decide +kernel
  have hfull := h 3 b _ hlength hreqs (.ofBody (headerAt b 24) (ascii "ab") ()) (by simp)
  rw [full_ofBody] at hfull
  exact hshort hfull

end TreeFrog.Generate
