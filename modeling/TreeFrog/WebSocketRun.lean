import TreeFrog.WebSocketRead

/-!
A WebSocket connection: the bytes arrive in pieces, every piece is parsed, and the list of
frames is read whenever it holds a message.
-/

namespace TreeFrog.WebSocketRun

open TreeFrog.Bytes TreeFrog.WebSocketFrame TreeFrog.WebSocketWire TreeFrog.WebSocketParse
open TreeFrog.WebSocketRead

/-- The frames, and the bytes that have not been parsed. -/
structure Connection where
  frames : List TWebSocketFrame := []
  recvBuffer : QByteArray := []

/-- One piece arrives; `none` when the connection is given up. -/
def receive (s : Connection) (piece : QByteArray) : Option (List Message × Connection) :=
  match parse s.frames (s.recvBuffer ++ piece) with
  | .parsed frames recvBuffer =>
    if canReadRequest frames then
      some ((readAllBinaryRequest frames).1, ⟨(readAllBinaryRequest frames).2, recvBuffer⟩)
    else some ([], ⟨frames, recvBuffer⟩)
  | _ => none

def run : Connection → List QByteArray → Option (List Message × Connection)
  | s, [] => some ([], s)
  | s, c :: cs =>
    match receive s c with
    | none => none
    | some (ms, s) =>
      match run s cs with
      | none => none
      | some (ms', s) => some (ms ++ ms', s)

/-! ### How far the frames have arrived -/

/-- The number of frames that lie within the first `n` bytes. -/
def arrived : List Frame → ℕ → ℕ
  | [], _ => 0
  | f :: fs, n => if f.bytes.length ≤ n then arrived fs (n - f.bytes.length) + 1 else 0

lemma arrived_stream (fs : List Frame) : arrived fs (stream fs).length = fs.length := by
  induction fs with
  | nil => rfl
  | cons f fs ih =>
    rw [stream_cons, List.length_append, arrived, if_pos (by omega), Nat.add_sub_cancel_left, ih,
      List.length_cons]

/-- Between two pieces: the beginning `w` of the next frame has been read, or nothing has. -/
inductive AtRest (fs : List Frame) (w : QByteArray) : List TWebSocketFrame → QByteArray → Prop
  | border (hw : w = []) : AtRest fs w [] []
  | inside {f : Frame} {gs : List Frame} {pfrm : TWebSocketFrame} {r : QByteArray}
      (hfs : fs = f :: gs) (h : Rests f w pfrm r) : AtRest fs w [pfrm] r

lemma AtRest.tail {fs : List Frame} {w r : QByteArray} {tail : List TWebSocketFrame}
    (h : AtRest fs w tail r) : ∀ g ∈ tail, g.state_ ≠ .Completed := by
  rcases h with ⟨-⟩ | ⟨-, h⟩
  · simp
  · intro g hg
    rw [List.mem_singleton.mp hg]
    exact h.state

/-- None of the frames is taken for a misplaced continuation when it arrives. -/
def Placeable : List Frame → List Frame → Prop
  | _, [] => True
  | l, f :: fs => isMisplaced (l.map done) (done f) = false ∧ Placeable (arrive l f) fs

/-- **Parsing a piece**: the frames that it completes are put in their places, and the rest of
it is the beginning of the next frame. -/
lemma parseLoop_frames {fs : List Frame} (hsmall : ∀ f ∈ fs, f.payload.length < 2 ^ 31)
    {f : Frame} {gs : List Frame} (hfs : fs = f :: gs) {u r d : QByteArray}
    {pfrm : TWebSocketFrame} (h : Rests f u pfrm r) (hd : u ++ d <+: stream fs) {l : List Frame}
    (hl : Placeable l (fs.take (arrived fs (u ++ d).length))) {fuel : ℕ}
    (hf : (r ++ d).length < fuel) :
    ∃ tail r', parseLoop fuel (l.map done) pfrm (r ++ d) =
        .parsed (((fs.take (arrived fs (u ++ d).length)).foldl arrive l).map done ++ tail) r' ∧
      AtRest (fs.drop (arrived fs (u ++ d).length))
        ((u ++ d).drop (stream (fs.take (arrived fs (u ++ d).length))).length) tail r' := by
  induction fs generalizing f gs u r d pfrm l fuel with
  | nil => cases hfs
  | cons g fs ih =>
    obtain ⟨rfl, rfl⟩ := List.cons.inj hfs
    have hg := hsmall g (by simp)
    rcases Nat.lt_or_ge (u ++ d).length g.bytes.length with hshort | hlong
    · -- the piece ends inside the frame
      have hk : arrived (g :: fs) (u ++ d).length = 0 := by rw [arrived, if_neg (by omega)]
      have hpre : u ++ d <+: g.bytes := by
        rw [stream_cons] at hd
        exact List.prefix_of_prefix_length_le hd (List.prefix_append _ _) (by omega)
      obtain ⟨pfrm', r', hparse, hrest⟩ := parseLoop_incomplete (l.map done) hg h hpre
        hshort hf
      refine ⟨[pfrm'], r', ?_, ?_⟩
      · rw [hk, hparse]; rfl
      · rw [hk]; exact .inside rfl hrest
    · rw [stream_cons] at hd
      obtain ⟨t, ht⟩ := List.prefix_of_prefix_length_le (List.prefix_append _ _) hd hlong
      have hk : arrived (g :: fs) (u ++ d).length = arrived fs t.length + 1 := by
        rw [arrived, if_pos hlong, ← ht, List.length_append, Nat.add_sub_cancel_left]
      rw [hk, List.take_succ_cons] at hl
      rw [hk, List.take_succ_cons, List.drop_succ_cons, List.foldl_cons, stream_cons,
        List.length_append, ← List.drop_drop, ← ht, List.drop_left]
      obtain ⟨hplace, hl⟩ := hl
      obtain ⟨fuel', hfuel', hparse⟩ := parseLoop_complete (l.map done) hg h ht.symm hf
      rw [hparse, goOn, hplace, if_neg (by decide), place_map]
      by_cases hnil : t = []
      · -- the piece ends with the frame
        have h0 : arrived fs t.length = 0 := by
          rw [hnil]
          cases fs with
          | nil => rfl
          | cons f' fs =>
            have := f'.bytes_length_pos
            rw [arrived, if_neg (by rw [List.length_nil]; omega)]
        rw [if_neg (not_not_intro hnil), h0]
        refine ⟨[], t, ?_, ?_⟩
        · simp
        · rw [hnil]; exact .border rfl
      · rw [if_pos hnil]
        have hpre : t <+: stream fs := by
          rw [← ht] at hd
          exact (List.prefix_append_right_inj _).mp hd
        cases fs with
        | nil => exact absurd (List.prefix_nil.mp hpre) hnil
        | cons f' fs =>
          have hnext := ih (fun x hx => hsmall x (List.mem_cons_of_mem _ hx)) rfl
            (Rests.nil f') (d := t) hpre hl hfuel'
          exact hnext

/-! ### The order of data and control frames -/

/-- The fragments of the message in progress when the frames `new` follow the fragments `p`. -/
def pending (p new : List Frame) : List Frame := (new.foldl Assembly.add ⟨[], p⟩).fragments

/-- Behind the frames `p`, each control frame has a final frame, or none, as the first data
frame before it. -/
def Calm : List Frame → List Frame → Prop
  | _, [] => True
  | p, f :: fs => (f.isControl = true → FirstDataFinal p) ∧ Calm (p ++ [f]) fs

instance decidableCalm : (p new : List Frame) → Decidable (Calm p new)
  | _, [] => .isTrue trivial
  | p, f :: fs =>
    have := decidableCalm (p ++ [f]) fs
    by unfold Calm; infer_instance

/-- The pieces keep control frames away from messages in progress: when a control frame is
completed, the first data frame among the fragments still waiting and the frames completed
earlier by the same piece is final, or there is none. -/
def Tame : List Frame → List Frame → ℕ → List QByteArray → Prop
  | _, _, _, [] => True
  | p, fs, n, c :: cs =>
    Calm p (fs.take (arrived fs (n + c.length))) ∧
      Tame (pending p (fs.take (arrived fs (n + c.length))))
        (fs.drop (arrived fs (n + c.length)))
        (n + c.length - (stream (fs.take (arrived fs (n + c.length)))).length) cs

instance decidableTame : (p fs : List Frame) → (n : ℕ) → (cs : List QByteArray) →
    Decidable (Tame p fs n cs)
  | _, _, _, [] => .isTrue trivial
  | p, fs, n, c :: cs =>
    have := decidableTame (pending p (fs.take (arrived fs (n + c.length))))
      (fs.drop (arrived fs (n + c.length)))
      (n + c.length - (stream (fs.take (arrived fs (n + c.length)))).length) cs
    by unfold Tame; infer_instance

/-- What the list of frames says about the frames that have arrived: `before` has been
delivered, `past` has arrived, and `s` is what is to be made of it. -/
structure Holds (before : List Message) (past : List Frame) (s : Assembly) (l : List Frame) :
    Prop where
  fragments : (group [] l).2 = s.fragments
  data : (before ++ (group [] l).1).filter (fun m => !m.1.isControl) = s.messages
  control : ((before ++ (group [] l).1).filter (fun m => m.1.isControl)).Perm (controls past)
  noControl : ∀ g ∈ s.fragments, g.isControl = false

/-- The next frame may be sent: a continuation exactly when a message is in progress. -/
def Fits (s : Assembly) (f : Frame) : Prop :=
  f.isControl = true ∨ (f.opcode = .Continuation ↔ (!s.fragments.isEmpty) = true)

section
variable {before : List Message} {past l : List Frame} {s : Assembly} {f : Frame}

lemma Holds.not_misplaced (h : Holds before past s l) (hf : Fits s f) :
    isMisplaced (l.map done) (done f) = false := by
  unfold isMisplaced
  rw [done_opCode]
  by_cases hop : f.opcode = .Continuation
  swap
  · simp [hop]
  have hne : s.fragments ≠ [] := by
    rcases hf with hc | hc
    · rw [Frame.isControl, hop] at hc; exact absurd hc (by decide)
    · simpa using hc.mp hop
  -- the frame before is the last of the fragments
  obtain ⟨⟨a, ha⟩, hfin⟩ := group_fragments (p := []) (by simp) l
  rw [List.nil_append, h.fragments] at ha
  rw [h.fragments] at hfin
  obtain ⟨g, hg⟩ := Option.ne_none_iff_exists'.mp (mt List.getLast?_eq_none_iff.mp hne)
  have hlast : (l.map done).getLast? = some (done g) := by
    rw [List.getLast?_map, ← ha, List.getLast?_append, hg]
    rfl
  have hmem := List.mem_of_getLast? hg
  rw [hlast]
  simp [hfin g hmem, h.noControl g hmem]

lemma messageOf_data (hs : ∀ g ∈ s.fragments, g.isControl = false) (hf : f.isControl = false) :
    (messageOf (s.fragments ++ [f])).1.isControl = false := by
  cases hfr : s.fragments with
  | nil => exact hf
  | cons g gs => exact hs g (by rw [hfr]; exact List.mem_cons_self ..)

lemma Holds.arrive (h : Holds before past s l)
    (hcalm : f.isControl = true → FirstDataFinal l) :
    Holds before (past ++ [f]) (s.add f) (arrive l f) := by
  cases hc : f.isControl with
  | true =>
    -- a control frame is a message of its own
    obtain ⟨d₁, d₂, h1, h2⟩ := group_insertFrame hc (hcalm hc)
    have hadd : s.add f = s := by unfold Assembly.add; rw [hc, if_pos rfl]
    have hmsg : (messageOf [f]).1.isControl = true := hc
    have harr : WebSocketRead.arrive l f = insertFrame f l := by
      unfold WebSocketRead.arrive; rw [hc, if_pos rfl]
    have hdata := h.data
    have hcontrol := h.control
    rw [h1] at hdata hcontrol
    rw [hadd, harr]
    refine ⟨by rw [h2]; exact h.fragments, ?_, ?_, h.noControl⟩
    · rw [h2, ← hdata]
      simp [hmsg]
    · rw [h2, controls_append]
      have hone : controls [f] = [messageOf [f]] := by
        simp [controls, hc, messageOf]
      rw [hone]
      refine List.Perm.trans ?_ (hcontrol.append_right _)
      simp only [List.filter_append, List.filter_cons, hmsg, if_true, List.append_assoc]
      refine List.Perm.append_left _ (List.Perm.append_left _ ?_)
      exact (List.perm_append_singleton _ _).symm
  | false =>
    have harr : WebSocketRead.arrive l f = l ++ [f] := by
      unfold WebSocketRead.arrive; rw [hc]; rfl
    have hcontrols : controls (past ++ [f]) = controls past := by
      rw [controls_append]; simp [controls, hc]
    have hmsg := messageOf_data h.noControl hc
    -- a data frame goes behind the fragments there are
    have hg := group_concat [] l f
    rw [h.fragments] at hg
    unfold Assembly.add
    rw [harr, hc, if_neg (by decide)]
    cases hfin : f.fin with
    | true =>
      rw [hfin, if_pos rfl] at hg
      rw [if_pos rfl]
      refine ⟨by rw [hg], ?_, ?_, by simp⟩
      · rw [hg, ← h.data]
        simp [hmsg]
      · rw [hg, hcontrols]
        simpa [hmsg] using h.control
    | false =>
      rw [hfin, if_neg (by decide)] at hg
      rw [if_neg (by decide)]
      refine ⟨by rw [hg], by rw [hg]; exact h.data, by rw [hg, hcontrols]; exact h.control, ?_⟩
      intro g hgm
      rcases List.mem_append.mp hgm with hgm | hgm
      · exact h.noControl g hgm
      · rw [List.mem_singleton.mp hgm]; exact hc

lemma Valid.next {fs : List Frame} (h : Valid (!s.fragments.isEmpty) (f :: fs)) :
    Fits s f ∧ Valid (!(s.add f).fragments.isEmpty) fs := by
  unfold Valid at h
  unfold Fits Assembly.add
  cases hc : f.isControl with
  | true =>
    rw [hc, if_pos rfl] at h
    exact ⟨Or.inl rfl, by rw [if_pos rfl]; exact h⟩
  | false =>
    rw [hc, if_neg (by decide)] at h
    refine ⟨Or.inr h.1, ?_⟩
    rw [if_neg (by decide)]
    cases hfin : f.fin with
    | true => simpa [hfin] using h.2
    | false =>
      have hne : (s.fragments ++ [f]).isEmpty = false := by simp
      rw [if_neg (by decide), hne]
      simpa [hfin] using h.2

lemma find_arrive {q : List Frame}
    (hq : l.find? (fun f => !f.isControl) = q.find? (fun f => !f.isControl)) :
    (WebSocketRead.arrive l f).find? (fun f => !f.isControl) =
      (q ++ [f]).find? (fun f => !f.isControl) := by
  unfold WebSocketRead.arrive
  cases hc : f.isControl with
  | true => rw [if_pos rfl, find_insertFrame hc, hq]; simp [hc]
  | false => rw [if_neg (by decide), List.find?_append, List.find?_append, hq]

/-- **The frames that a piece completes**: none is misplaced, and the list says what it should
about all of them. -/
lemma Holds.arrive_all {new rest q : List Frame} (h : Holds before past s l)
    (hv : Valid (!s.fragments.isEmpty) (new ++ rest))
    (hq : l.find? (fun f => !f.isControl) = q.find? (fun f => !f.isControl)) (hcalm : Calm q new) :
    Placeable l new ∧
      Holds before (past ++ new) (new.foldl Assembly.add s)
        (new.foldl WebSocketRead.arrive l) ∧
      Valid (!(new.foldl Assembly.add s).fragments.isEmpty) rest := by
  induction new generalizing past s l q with
  | nil => exact ⟨trivial, by simpa using h, hv⟩
  | cons f new ih =>
    obtain ⟨hf, hv⟩ := Valid.next hv
    have hfirst : f.isControl = true → FirstDataFinal l := fun hc => by
      have := hcalm.1 hc
      rwa [FirstDataFinal, ← hq] at this
    obtain ⟨h1, h2, h3⟩ := ih (h.arrive hfirst) hv (find_arrive hq) hcalm.2
    refine ⟨⟨h.not_misplaced hf, h1⟩, ?_, h3⟩
    rwa [List.append_assoc] at h2

end

/-! ### One piece -/

lemma lastFrame_atRest {p fs : List Frame} {w r : QByteArray} {tail : List TWebSocketFrame}
    (h : AtRest fs w tail r) {f : Frame} {gs : List Frame} (hfs : fs = f :: gs) :
    ∃ pfrm, lastFrame (p.map done ++ tail) = (p.map done, pfrm) ∧ Rests f w pfrm r := by
  rcases h with ⟨rfl⟩ | ⟨hfs', h⟩
  · refine ⟨{}, ?_, Rests.nil f⟩
    rw [List.append_nil, lastFrame, List.getLast?_map]
    cases p.getLast? with
    | none => rfl
    | some g => rfl
  · rw [hfs] at hfs'
    obtain ⟨rfl, rfl⟩ := List.cons.inj hfs'
    refine ⟨_, ?_, h⟩
    rw [lastFrame, List.getLast?_concat]
    simp only [h.state, if_false, List.dropLast_concat]

lemma readAllBinaryRequest_of_not {frames : List TWebSocketFrame}
    (h : canReadRequest frames = false) : readAllBinaryRequest frames = ([], frames) := by
  unfold readAllBinaryRequest
  cases frames.length with
  | zero => rfl
  | succ n => rw [readAll, h]; rfl

/-- **One piece**: what it completes is delivered, and the fragments are kept. -/
lemma receive_piece {p fs : List Frame} {w r c : QByteArray} {tail : List TWebSocketFrame}
    (h : AtRest fs w tail r) (hc : c ≠ []) (hd : w ++ c <+: stream fs)
    (hsmall : ∀ f ∈ fs, f.payload.length < 2 ^ 31)
    (hplace : Placeable p (fs.take (arrived fs (w ++ c).length))) :
    ∃ tail' r', receive ⟨p.map done ++ tail, r⟩ c =
        some ((group [] ((fs.take (arrived fs (w ++ c).length)).foldl arrive p)).1,
          ⟨(group [] ((fs.take (arrived fs (w ++ c).length)).foldl arrive p)).2.map done ++ tail',
            r'⟩) ∧
      AtRest (fs.drop (arrived fs (w ++ c).length))
        ((w ++ c).drop (stream (fs.take (arrived fs (w ++ c).length))).length) tail' r' := by
  cases fs with
  | nil =>
    have := (List.append_eq_nil_iff.mp (List.prefix_nil.mp hd)).2
    exact absurd this hc
  | cons f fs =>
    obtain ⟨pfrm, hlast, hrests⟩ := lastFrame_atRest (p := p) h rfl
    obtain ⟨tail', r', hparse, hrest⟩ := parseLoop_frames hsmall rfl hrests hd hplace
      (Nat.lt_succ_self (r ++ c).length)
    refine ⟨tail', r', ?_, hrest⟩
    have hread := readAllBinaryRequest_map hrest.tail
      (((f :: fs).take (arrived (f :: fs) (w ++ c).length)).foldl arrive p)
    rw [receive, parse, hlast]
    simp only [hparse]
    cases hcan : canReadRequest
      ((((f :: fs).take (arrived (f :: fs) (w ++ c).length)).foldl arrive p).map done ++ tail') with
    | true => rw [if_pos rfl, hread]
    | false =>
      rw [readAllBinaryRequest_of_not hcan, Prod.mk.injEq] at hread
      rw [if_neg (by decide), hread.1, ← hread.2]

/-! ### A run -/

lemma stream_append (fs gs : List Frame) : stream (fs ++ gs) = stream fs ++ stream gs := by
  simp [stream]

lemma stream_arrived_le (fs : List Frame) (n : ℕ) :
    (stream (fs.take (arrived fs n))).length ≤ n := by
  induction fs generalizing n with
  | nil => simp
  | cons f fs ih =>
    rw [arrived]
    split_ifs with h
    · rw [List.take_succ_cons, stream_cons, List.length_append]
      have := ih (n - f.bytes.length)
      omega
    · simp

lemma arrived_add (fs : List Frame) (n m : ℕ) :
    arrived fs (n + m) = arrived fs n +
      arrived (fs.drop (arrived fs n))
        (n - (stream (fs.take (arrived fs n))).length + m) := by
  induction fs generalizing n with
  | nil => rfl
  | cons f fs ih =>
    by_cases h : f.bytes.length ≤ n
    · have hk : arrived (f :: fs) n = arrived fs (n - f.bytes.length) + 1 := by
        rw [arrived, if_pos h]
      rw [hk, List.take_succ_cons, List.drop_succ_cons, stream_cons, List.length_append, arrived,
        if_pos (by omega), show n + m - f.bytes.length = n - f.bytes.length + m by omega, ih,
        Nat.sub_sub]
      omega
    · have hk : arrived (f :: fs) n = 0 := by rw [arrived, if_neg h]
      rw [hk, List.take_zero, stream_nil, List.drop_zero, List.length_nil, Nat.sub_zero,
        Nat.zero_add]

lemma AtRest.arrived_zero {fs : List Frame} {w r : QByteArray} {tail : List TWebSocketFrame}
    (h : AtRest fs w tail r) : arrived fs w.length = 0 := by
  cases fs with
  | nil => rfl
  | cons f fs =>
    have hlt : w.length < f.bytes.length := by
      rcases h with ⟨rfl⟩ | ⟨hfs, h⟩
      · exact f.bytes_length_pos
      · obtain ⟨rfl, rfl⟩ := List.cons.inj hfs
        exact h.length_lt
    rw [arrived, if_neg (by omega)]

lemma fragments_foldl (s : Assembly) (new : List Frame) :
    (new.foldl Assembly.add s).fragments = pending s.fragments new := by
  unfold pending
  suffices h : ∀ (s s' : Assembly), s.fragments = s'.fragments →
      (new.foldl Assembly.add s).fragments = (new.foldl Assembly.add s').fragments from h _ _ rfl
  induction new with
  | nil => exact fun s s' h => h
  | cons f new ih =>
    intro s s' h
    refine ih _ _ ?_
    unfold Assembly.add
    split_ifs
    · exact h
    · rfl
    · simp only [h]

lemma stream_drop_arrived {fs : List Frame} {w rest : QByteArray} (h : w ++ rest <+: stream fs) :
    w.drop (stream (fs.take (arrived fs w.length))).length ++ rest <+:
      stream (fs.drop (arrived fs w.length)) := by
  have hdrop := h.drop (stream (fs.take (arrived fs w.length))).length
  rw [List.drop_append_of_le_length (stream_arrived_le fs w.length)] at hdrop
  have hs : stream fs = stream (fs.take (arrived fs w.length)) ++
      stream (fs.drop (arrived fs w.length)) := by
    rw [← stream_append, List.take_append_drop]
  rwa [hs, List.drop_left] at hdrop

lemma take_arrived_append (fs : List Frame) (w rest : QByteArray) :
    fs.take (arrived fs (w ++ rest).length) = fs.take (arrived fs w.length) ++
      (fs.drop (arrived fs w.length)).take (arrived (fs.drop (arrived fs w.length))
        (w.drop (stream (fs.take (arrived fs w.length))).length ++ rest).length) := by
  rw [List.length_append, List.length_append, List.length_drop, arrived_add, List.take_add]

lemma run_from {cs : List QByteArray} {before : List Message} {past fs : List Frame}
    {s : Assembly} {w r : QByteArray} {tail : List TWebSocketFrame}
    (hrest : AtRest fs w tail r) (hcs : ∀ c ∈ cs, c ≠ []) (hpre : w ++ cs.flatten <+: stream fs)
    (hsmall : ∀ f ∈ fs, f.payload.length < 2 ^ 31) (hv : Valid (!s.fragments.isEmpty) fs)
    (hdata : before.filter (fun m => !m.1.isControl) = s.messages)
    (hcontrol : (before.filter (fun m => m.1.isControl)).Perm (controls past))
    (hfin : ∀ g ∈ s.fragments, g.fin = false) (hnc : ∀ g ∈ s.fragments, g.isControl = false)
    (htame : Tame s.fragments fs w.length cs) :
    ∃ ms s', run ⟨s.fragments.map done ++ tail, r⟩ cs = some (ms, s') ∧
      (before ++ ms).filter (fun m => !m.1.isControl) =
        ((fs.take (arrived fs (w ++ cs.flatten).length)).foldl Assembly.add s).messages ∧
      ((before ++ ms).filter (fun m => m.1.isControl)).Perm
        (controls (past ++ fs.take (arrived fs (w ++ cs.flatten).length))) := by
  induction cs generalizing before past fs s w r tail with
  | nil =>
    refine ⟨[], _, rfl, ?_⟩
    simp only [List.flatten_nil, List.append_nil, hrest.arrived_zero, List.take_zero]
    exact ⟨hdata, hcontrol⟩
  | cons c cs ih =>
    obtain ⟨hc, hcs⟩ := List.forall_mem_cons.mp hcs
    rw [List.flatten_cons, ← List.append_assoc] at hpre ⊢
    obtain ⟨hcalm, htame⟩ := htame
    rw [← List.length_append] at hcalm htame
    set n := (w ++ c).length with hn
    set new := fs.take (arrived fs n) with hnew
    have hsplit : new ++ fs.drop (arrived fs n) = fs := List.take_append_drop _ _
    -- nothing is ready when the piece arrives
    have hgroup := group_of_not_final [] hfin
    rw [List.nil_append] at hgroup
    have hholds : Holds before past s s.fragments := by
      refine ⟨by rw [hgroup], ?_, ?_, hnc⟩
      · rw [hgroup, List.append_nil]; exact hdata
      · rw [hgroup, List.append_nil]; exact hcontrol
    obtain ⟨hplace, hafter, hv'⟩ := hholds.arrive_all
      (show Valid (!s.fragments.isEmpty) (new ++ fs.drop (arrived fs n)) by
        rw [hsplit]; exact hv) rfl hcalm
    obtain ⟨tail', r', hreceive, hrest'⟩ := receive_piece hrest hc
      ((List.prefix_append _ _).trans hpre) hsmall hplace
    rw [← hn, ← hnew, hafter.fragments] at hreceive
    rw [← hn, ← hnew] at hrest'
    have hw' : ((w ++ c).drop (stream new).length).length = n - (stream new).length :=
      List.length_drop ..
    have hfin' : ∀ g ∈ (new.foldl Assembly.add s).fragments, g.fin = false := by
      rw [← hafter.fragments]
      exact (group_fragments (p := []) (by simp) _).2
    obtain ⟨ms, s', hrun, hms, hcs'⟩ := ih hrest' hcs (stream_drop_arrived hpre)
      (fun f hf => hsmall f (List.mem_of_mem_drop hf)) hv' hafter.data hafter.control hfin'
      hafter.noControl (by rw [hw', fragments_foldl]; exact htame)
    have hall : fs.take (arrived fs (w ++ c ++ cs.flatten).length) = new ++
        (fs.drop (arrived fs n)).take (arrived (fs.drop (arrived fs n))
          ((w ++ c).drop (stream new).length ++ cs.flatten).length) := take_arrived_append ..
    refine ⟨(group [] (new.foldl arrive s.fragments)).1 ++ ms, s', ?_, ?_, ?_⟩
    · rw [run, hreceive]
      simp only [hrun]
    · rw [hall, List.foldl_append, ← List.append_assoc]
      exact hms
    · rw [hall, ← List.append_assoc, ← List.append_assoc]
      exact hcs'

/-- **Every message is delivered**: when the pieces keep control frames away from messages in
progress, the data messages that have arrived are delivered in order, each once and with the
payloads of its fragments, and so is each control frame. -/
theorem run_delivers (fs : List Frame) (cs : List QByteArray) (hv : Valid false fs)
    (hsmall : ∀ f ∈ fs, f.payload.length < 2 ^ 31) (hcs : ∀ c ∈ cs, c ≠ [])
    (hpre : cs.flatten <+: stream fs) (htame : Tame [] fs 0 cs) :
    ∃ ms s', run {} cs = some (ms, s') ∧
      ms.filter (fun m => !m.1.isControl) =
        (assemble (fs.take (arrived fs cs.flatten.length))).messages ∧
      (ms.filter (fun m => m.1.isControl)).Perm
        (controls (fs.take (arrived fs cs.flatten.length))) ∧
      (cs.flatten = stream fs → arrived fs cs.flatten.length = fs.length) := by
  have hstart : AtRest fs [] [] [] := .border rfl
  have hnone : (([] : List Message).filter fun m => m.1.isControl).Perm (controls []) :=
    List.Perm.refl []
  obtain ⟨ms, s', hrun, hdata, hcontrol⟩ := run_from (s := {}) hstart hcs hpre hsmall hv rfl
    hnone (by simp) (by simp) htame
  refine ⟨ms, s', hrun, hdata, hcontrol, fun hall => ?_⟩
  rw [hall, arrived_stream]

/-- A ping between two messages, the second in two fragments, and a cut inside a frame. -/
def pingBetween : List Frame :=
  [⟨true, .TextFrame, some 0x01020304, ascii "Hi", by decide, by decide⟩,
    ⟨true, .Ping, some 0, ascii "p", by decide, by decide⟩,
    ⟨false, .BinaryFrame, some 0xFF00FF00, ascii "ab", by decide, by decide⟩,
    ⟨true, .Continuation, none, ascii "c", by decide, by decide⟩]

theorem run_delivers_pingBetween :
    ∃ ms s', run {} [(stream pingBetween).take 17, (stream pingBetween).drop 17] = some (ms, s') ∧
      ms.filter (fun m => !m.1.isControl) =
        [(.TextFrame, ascii "Hi"), (.BinaryFrame, ascii "abc")] ∧
      (ms.filter (fun m => m.1.isControl)).Perm [(.Ping, ascii "p")] := by
  obtain ⟨ms, s', hrun, hdata, hcontrol, -⟩ := run_delivers pingBetween
    [(stream pingBetween).take 17, (stream pingBetween).drop 17] (by decide) (by decide)
    (by decide +kernel) (by rw [List.prefix_iff_eq_take]; decide +kernel)
    (by decide +kernel)
  have hk : arrived pingBetween
      [(stream pingBetween).take 17, (stream pingBetween).drop 17].flatten.length = 4 := by
    decide +kernel
  rw [hk] at hdata hcontrol
  exact ⟨ms, s', hrun, hdata, hcontrol⟩

/-- A ping between the fragments of a message, every frame in a piece of its own. -/
def pingInside : List Frame :=
  [⟨false, .TextFrame, some 0x01020304, ascii "He", by decide, by decide⟩,
    ⟨true, .Ping, some 0x01020304, ascii "p", by decide, by decide⟩,
    ⟨true, .Continuation, some 0x01020304, ascii "y", by decide, by decide⟩]

/-- The ping is joined to the first fragment, and the second is a message of its own. -/
theorem not_run_delivers :
    ¬ ∀ (fs : List Frame) (cs : List QByteArray), Valid false fs →
      (∀ f ∈ fs, f.payload.length < 2 ^ 31) → (∀ c ∈ cs, c ≠ []) → cs.flatten = stream fs →
        ∃ ms s', run {} cs = some (ms, s') ∧
          ms.filter (fun m => !m.1.isControl) = (assemble fs).messages ∧
          (ms.filter (fun m => m.1.isControl)).Perm (controls fs) := by
  intro h
  obtain ⟨ms, s', hrun, hdata, -⟩ := h pingInside (pingInside.map Frame.bytes) (by decide)
    (by decide) (by decide +kernel) (by decide +kernel)
  have hms : (run {} (pingInside.map Frame.bytes)).map Prod.fst =
      some [(.TextFrame, ascii "Hep"), (.Continuation, ascii "y")] := by decide +kernel
  rw [hrun, Option.map_some, Option.some.injEq] at hms
  simp only at hms
  rw [hms] at hdata
  exact absurd hdata (by decide +kernel)

end TreeFrog.WebSocketRun
