import TreeFrog.Generate
import TreeFrog.Wire

/-!
A pipeline of requests is cut where the requests meet.
-/

namespace TreeFrog.Pipeline

open TreeFrog.Bytes TreeFrog.RequestHeader TreeFrog.Generate TreeFrog.Wire

variable {QHostAddress : Type}

/-- The request that is to be returned for a request that was sent. -/
def parsed (a : QHostAddress) (r : Request) : THttpRequest QHostAddress :=
  .ofBody r.header r.body a

/-- The requests of a pipeline, one behind the other. -/
def stream (rs : List Request) : QByteArray := rs.flatMap Request.bytes

@[simp] lemma stream_nil : stream [] = [] := rfl
@[simp] lemma stream_cons (r : Request) (rs : List Request) :
    stream (r :: rs) = r.head ++ (r.body ++ stream rs) := by simp [stream, Request.bytes]

lemma noBlockAt_end (b : QByteArray) : NoBlockAt b b.length := fun e he => by
  have := he.le_length
  omega

section
variable (r : Request) (pre t : QByteArray)

lemma blockAt_head : BlockAt (pre ++ (r.head ++ t)) pre.length (pre.length + r.head.length) := by
  have h := indexOf_append_right pre (r.head ++ t) CRLFCRLF 0
  have hpos := head_length_pos r
  rw [indexOf_zero, search_head, Nat.add_zero] at h
  exact ⟨pre.length + (r.head.length - 4), by omega, h, by omega⟩

lemma headerAt_head (hne : r.fields ≠ []) :
    headerAt (pre ++ (r.head ++ t)) pre.length = r.header := by
  unfold headerAt
  rw [List.drop_left, ofBytes_head r t (Or.inl hne)]

/-- **One request of a pipeline**: it is returned, and the loop goes on behind its body. -/
lemma generateLoop_request (a : QHostAddress) (hne : r.fields ≠ []) (fuel : ℕ)
    (hlen : (pre ++ (r.head ++ (r.body ++ t))).length < 2 ^ 31) :
    generateLoop (pre ++ (r.head ++ (r.body ++ t))) a (fuel + 1) pre.length [] =
      (generateLoop (pre ++ (r.head ++ (r.body ++ t))) a fuel (pre ++ r.bytes).length []).map
        (parsed a r :: ·) := by
  have hheader := headerAt_head r pre (r.body ++ t) hne
  have hdecl : declared (pre ++ (r.head ++ (r.body ++ t))) pre.length = r.body.length := by
    unfold declared
    rw [hheader, Request.header_contentLength]
  have hbody : ((pre ++ (r.head ++ (r.body ++ t))).drop (pre.length + r.head.length)).take
      r.body.length = r.body := by
    rw [← List.drop_drop, List.drop_left, List.drop_left, List.take_left]
  simp only [List.length_append] at hlen
  rw [generateLoop_block (blockAt_head r pre (r.body ++ t)) (by rw [hdecl]; omega), hheader, hdecl,
    hbody]
  congr 2
  rw [Request.bytes, List.length_append, List.length_append]
  push_cast
  omega

end

lemma generateLoop_stream (a : QHostAddress) (rs : List Request) (pre : QByteArray) {fuel : ℕ}
    (hne : ∀ r ∈ rs, r.fields ≠ []) (hlen : (pre ++ stream rs).length < 2 ^ 31)
    (hf : rs.length < fuel) :
    generateLoop (pre ++ stream rs) a fuel pre.length [] = some (rs.map (parsed a)) := by
  induction rs generalizing pre fuel with
  | nil =>
    obtain ⟨fuel, rfl⟩ := Nat.exists_eq_succ_of_ne_zero (Nat.ne_of_gt hf)
    rw [stream_nil, List.append_nil, generateLoop_noBlock (noBlockAt_end pre)]
    rfl
  | cons r rs ih =>
    obtain ⟨fuel, rfl⟩ := Nat.exists_eq_succ_of_ne_zero (Nat.ne_of_gt (Nat.zero_lt_of_lt hf))
    have hsplit : pre ++ stream (r :: rs) = (pre ++ r.bytes) ++ stream rs := by
      simp [Request.bytes]
    rw [stream_cons] at hlen ⊢
    rw [generateLoop_request r pre (stream rs) a (hne r (by simp)) fuel hlen, ← stream_cons,
      hsplit, ih (pre ++ r.bytes) (fun x hx => hne x (List.mem_cons_of_mem _ hx))
        (by rw [← hsplit, stream_cons]; exact hlen) (by simpa using hf)]
    rfl

/-- **Pipelined requests are cut exactly**: the requests that come back are those that were
sent, in order. -/
theorem generate_stream (fuel : ℕ) (a : QHostAddress) (rs : List Request)
    (hne : ∀ r ∈ rs, r.fields ≠ []) (hlen : (stream rs).length < 2 ^ 31)
    (hf : rs.length < fuel) :
    generate fuel (stream rs) a = some (rs.map (parsed a)) :=
  generateLoop_stream a rs [] hne hlen hf

/-- A request with one field and no body. -/
def getRequest : Request where
  method := ascii "GET"
  path := ascii "/"
  majVersion := 1
  minVersion := 1
  fields := [⟨ascii "Host", ascii " a", by decide, by decide, by decide⟩]
  body := []
  method_ne := by decide
  method_clean := by decide
  path_clean := by decide
  body_length := by decide

/-- A request whose body is an empty line. -/
def postRequest : Request where
  method := ascii "POST"
  path := ascii "/x"
  majVersion := 1
  minVersion := 1
  fields := [⟨ascii "content-length", ascii " 4", by decide, by decide, by decide⟩]
  body := CRLFCRLF
  method_ne := by decide
  method_clean := by decide
  path_clean := by decide
  body_length := by decide

theorem generate_stream_two :
    generate 3 (stream [postRequest, getRequest]) () =
      some [parsed () postRequest, parsed () getRequest] :=
  generate_stream 3 () [postRequest, getRequest] (by decide) (by decide) (by decide)

end TreeFrog.Pipeline
