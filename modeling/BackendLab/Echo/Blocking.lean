import BackendLab.Echo.Client
import BackendLab.Support.Sessions

/-!
# The blocking echo server

`syncserver` gives every client a thread of its own, which sends back what it reads,
chunk by chunk.  The threads are kept in `thread_set`.  The client is `syncclient`,
or any other.
-/

namespace BackendLab.Echo

open Relation Support

/-- `MAX_LENGTH` of `syncserver`. -/
def chunkSize : ℕ := 1024

/-- Where the thread of a client is, with the bytes it has read and not sent back:
in `read_some`, in front of the output, in `write`, at its end, or in the output of
an array that has no NUL. -/
inductive Stage where
  | reading
  | printing (chunk : Bytes)
  | writing (left : Bytes)
  | ended (left : Bytes)
  | overread (chunk : Bytes)
  deriving DecidableEq, Repr

def Stage.held : Stage → Bytes
  | .reading => []
  | .printing chunk => chunk
  | .writing left => left
  | .ended left => left
  | .overread chunk => chunk

/-- The thread of a client, what the client has still to be read of, and what has
been written to it. -/
structure SyncSession where
  stage : Stage
  unread : Bytes
  sent : Bytes
  deriving DecidableEq, Repr

/-- The text that `std::cout << data` prints of the array, if it has an end. -/
def printed (chunk : Bytes) : Option Bytes :=
  let data := chunk ++ List.replicate (chunkSize - chunk.length) 0
  if 0 ∈ data then some (cstr data 0) else none

/-- The steps of the function `session`.  It reads what has come of the client's
bytes, at least one and at most an array full; the peer may be gone when its address
is printed; `write` is made of any number of transfers.  No step takes the thread out
of `thread_set`. -/
inductive SyncSession.Moves : SyncSession → Bool → SyncSession → Prop
  | readSome {x : SyncSession} {n : ℕ} (hstage : x.stage = .reading) (hpos : 0 < n)
      (hle : n ≤ min chunkSize x.unread.length) :
      Moves x false
        { x with stage := .printing (x.unread.take n), unread := x.unread.drop n }
  | eof {x : SyncSession} (hstage : x.stage = .reading) (hnone : x.unread = []) :
      Moves x false { x with stage := .ended [] }
  | readFails {x : SyncSession} (hstage : x.stage = .reading) :
      Moves x false { x with stage := .ended [] }
  | peerGone {x : SyncSession} {chunk : Bytes} (hstage : x.stage = .printing chunk) :
      Moves x false { x with stage := .ended chunk }
  | print {x : SyncSession} {chunk : Bytes} (hstage : x.stage = .printing chunk) :
      Moves x false
        { x with
          stage := if (printed chunk).isSome then .writing chunk else .overread chunk }
  | writeSome {x : SyncSession} {left : Bytes} {n : ℕ} (hstage : x.stage = .writing left)
      (hpos : 0 < n) (hle : n ≤ left.length) :
      Moves x false
        { x with
          sent := x.sent ++ left.take n
          stage := if left.drop n = [] then .reading else .writing (left.drop n) }
  | writeFails {x : SyncSession} {left : Bytes} (hstage : x.stage = .writing left) :
      Moves x false { x with stage := .ended left }

/-- Where `main` is: in `accept`, in front of the thread of a client that has been
accepted, out of the loop, or at its end, by `return` or in `std::terminate`. -/
inductive SyncMain (ι : Type*) where
  | accepting
  | starting (client : ι)
  | leaving
  | returned
  | terminated
  deriving DecidableEq, Repr

/-- The program, and with it its threads, has not come to its end. -/
def SyncMain.Running {ι : Type*} (m : SyncMain ι) : Prop :=
  m ≠ .returned ∧ m ≠ .terminated

/-- `thread_set` is the map of the sessions.  `refused` is a client that has been
accepted and for which no thread could be made. -/
structure SyncServer (ι : Type*) where
  sessions : Sessions ι SyncSession
  main : SyncMain ι
  refused : Option ι

variable {ι : Type*} [DecidableEq ι]

/-- Memory does not run out in `thread_set.insert`.  When `accept` or the constructor
of a thread throws, `main` returns without a `join`, and the destructor of a thread
that can be joined calls `std::terminate`. -/
inductive SyncServer.Step : SyncServer ι → SyncServer ι → Prop
  | accept {s : SyncServer ι} {i : ι} (hmain : s.main = .accepting)
      (hfresh : i ∉ s.sessions.accepted) : Step s { s with main := .starting i }
  | startThread {s : SyncServer ι} {i : ι} (hmain : s.main = .starting i) :
      Step s { s with sessions := s.sessions.accept i, main := .accepting }
  | session {s : SyncServer ι} {t : Sessions ι SyncSession} (hmain : s.main.Running)
      (h : Sessions.Runs SyncSession.Moves s.sessions t) :
      Step s { s with sessions := t }
  | acceptFails {s : SyncServer ι} (hmain : s.main = .accepting) :
      Step s { s with main := .leaving }
  | threadFails {s : SyncServer ι} {i : ι} (hmain : s.main = .starting i) :
      Step s { s with main := .leaving, refused := some i }
  | leave {s : SyncServer ι} (hmain : s.main = .leaving) :
      Step s
        { s with
          main := if s.sessions.registered = ∅ then .returned else .terminated }

/-- The client `i` sends the bytes `input i`. -/
def SyncServer.start (input : ι → Bytes) : SyncServer ι :=
  ⟨.empty fun i => ⟨.reading, input i, []⟩, .accepting, none⟩

def SyncReachable (input : ι → Bytes) (s : SyncServer ι) : Prop :=
  ReflTransGen SyncServer.Step (.start input) s

/-! ## What a thread sends back -/

theorem printed_eq_none_iff {chunk : Bytes} (h : chunk.length ≤ chunkSize) :
    printed chunk = none ↔ chunk.length = chunkSize ∧ 0 ∉ chunk := by
  have hzeros : (0 : UInt8) ∈ List.replicate (chunkSize - chunk.length) 0 ↔
      chunk.length < chunkSize := by
    simp only [List.mem_replicate, and_true]
    omega
  simp only [printed, List.mem_append, hzeros]
  split_ifs with hmem
  · simp only [false_iff]
    rintro ⟨hlen, hnot⟩
    exact hmem.elim hnot fun hlt => absurd hlen hlt.ne
  · simp only [true_iff]
    have hnot := not_or.mp hmem
    exact ⟨le_antisymm h (not_lt.mp hnot.2), hnot.1⟩

/-- What has been sent, what is held and what is unread are the bytes of the client.
No more is held than the array takes, something is held while it is printed or
written, and the output is overread only with a full array without a NUL. -/
structure Returns (input : Bytes) (x : SyncSession) : Prop where
  input : input = x.sent ++ (x.stage.held ++ x.unread)
  held_le : x.stage.held.length ≤ chunkSize
  busy : ∀ b, x.stage = .printing b ∨ x.stage = .writing b → b ≠ []
  overread : ∀ chunk, x.stage = .overread chunk →
    chunk.length = chunkSize ∧ 0 ∉ chunk

theorem returns_start (input : Bytes) : Returns input ⟨.reading, input, []⟩ :=
  ⟨rfl, Nat.zero_le _, by simp, by simp⟩

namespace Returns

variable {input left chunk : Bytes} {x : SyncSession} {n : ℕ}

theorem readSome (h : Returns input x) (hstage : x.stage = .reading) (hpos : 0 < n)
    (hle : n ≤ min chunkSize x.unread.length) :
    Returns input
      { x with stage := .printing (x.unread.take n), unread := x.unread.drop n } := by
  have hinput := h.input
  rw [hstage] at hinput
  have hlen : (x.unread.take n).length = n :=
    List.length_take_of_le (le_min_iff.mp hle).2
  refine ⟨?_, ?_, ?_, by simp⟩
  · simpa [Stage.held] using hinput
  · simp only [Stage.held, hlen]
    exact (le_min_iff.mp hle).1
  · intro b hb
    obtain rfl : x.unread.take n = b := by simpa using hb
    exact List.ne_nil_of_length_pos (hlen.symm ▸ hpos)

/-- The thread comes to its end with what it holds. -/
theorem ended (h : Returns input x) (hstage : x.stage.held = left) :
    Returns input { x with stage := .ended left } := by
  subst hstage
  exact ⟨h.input, h.held_le, by simp, by simp⟩

theorem print (h : Returns input x) (hstage : x.stage = .printing chunk) :
    Returns input
      { x with
        stage := if (printed chunk).isSome then .writing chunk else .overread chunk } := by
  have hinput := h.input
  have hheld := h.held_le
  rw [hstage] at hinput hheld
  by_cases hprinted : (printed chunk).isSome
  · rw [if_pos hprinted]
    refine ⟨hinput, hheld, fun b hb => ?_, by simp⟩
    obtain rfl : chunk = b := by simpa using hb
    exact h.busy _ (.inl hstage)
  · rw [if_neg hprinted]
    refine ⟨hinput, hheld, by simp, fun other hother => ?_⟩
    obtain rfl := Stage.overread.inj hother
    exact (printed_eq_none_iff hheld).mp (Option.not_isSome_iff_eq_none.mp hprinted)

theorem writeSome (h : Returns input x) (hstage : x.stage = .writing left) :
    Returns input
      { x with
        sent := x.sent ++ left.take n
        stage := if left.drop n = [] then .reading else .writing (left.drop n) } := by
  have hinput := h.input
  have hheld := h.held_le
  rw [hstage] at hinput hheld
  have hsplit : input = (x.sent ++ left.take n) ++ (left.drop n ++ x.unread) := by
    rw [List.append_assoc, ← List.append_assoc (left.take n), List.take_append_drop]
    exact hinput
  by_cases hleft : left.drop n = []
  · rw [if_pos hleft]
    rw [hleft] at hsplit
    exact ⟨hsplit, Nat.zero_le _, by simp, by simp⟩
  · rw [if_neg hleft]
    refine ⟨hsplit, (List.drop_sublist n left).length_le.trans hheld, ?_, by simp⟩
    intro b hb
    obtain rfl : left.drop n = b := by simpa using hb
    exact hleft

theorem moves {y : SyncSession} {c : Bool} (h : Returns input x)
    (hmoves : x.Moves c y) : c = false ∧ Returns input y := by
  cases hmoves with
  | readSome hstage hpos hle => exact ⟨rfl, h.readSome hstage hpos hle⟩
  | eof hstage hnone => exact ⟨rfl, h.ended (congrArg Stage.held hstage)⟩
  | readFails hstage => exact ⟨rfl, h.ended (congrArg Stage.held hstage)⟩
  | peerGone hstage => exact ⟨rfl, h.ended (congrArg Stage.held hstage)⟩
  | print hstage => exact ⟨rfl, h.print hstage⟩
  | writeSome hstage hpos hle => exact ⟨rfl, h.writeSome hstage⟩
  | writeFails hstage => exact ⟨rfl, h.ended (congrArg Stage.held hstage)⟩

end Returns

/-! ## All threads -/

section Threads

variable {input : ι → Bytes} {s : SyncServer ι}

omit [DecidableEq ι] in
theorem keeps_returns (input : ι → Bytes) :
    Sessions.Keeps SyncSession.Moves (fun i => ⟨.reading, input i, []⟩)
      (fun i b x => b = false ∧ Returns (input i) x) where
  first := fun i => ⟨rfl, returns_start (input i)⟩
  handle := by
    rintro i b x c y ⟨rfl, h⟩ hmoves
    exact h.moves hmoves

/-- `main` is in its loop. -/
def SyncMain.InLoop (m : SyncMain ι) : Prop :=
  m = .accepting ∨ ∃ i, m = .starting i

/-- Every thread is in `thread_set`, a client has been refused only behind the loop and
has no thread, and the end of `main` is the one that `thread_set` makes. -/
structure SyncServer.Inv (input : ι → Bytes) (s : SyncServer ι) : Prop where
  sessions : Sessions.Inv (fun i => ⟨.reading, input i, []⟩)
    (fun i b x => b = false ∧ Returns (input i) x) s.sessions
  starting : ∀ i, s.main = .starting i → i ∉ s.sessions.accepted
  refused : ∀ i, s.refused = some i → ¬ s.main.InLoop ∧ i ∉ s.sessions.accepted
  terminated : s.main = .terminated → s.sessions.registered ≠ ∅
  returned : s.main = .returned → s.sessions.registered = ∅

theorem SyncServer.Inv.step {t : SyncServer ι} (h : s.Inv input)
    (hstep : SyncServer.Step s t) : t.Inv input := by
  cases hstep with
  | @accept i hmain hfresh =>
      refine ⟨h.sessions, ?_, ?_, by simp, by simp⟩
      · intro k hk
        obtain rfl := SyncMain.starting.inj hk
        exact hfresh
      · intro k hk
        exact absurd (.inl hmain) (h.refused k hk).1
  | @startThread i hmain =>
      refine ⟨h.sessions.accept (keeps_returns input) (h.starting i hmain), by simp, ?_,
        by simp, by simp⟩
      intro k hk
      exact absurd (.inr ⟨i, hmain⟩) (h.refused k hk).1
  | session hmain hruns =>
      have hsame := hruns.accepted_eq
      refine ⟨h.sessions.runs (keeps_returns input) hruns, ?_, ?_,
        fun hend => absurd hend hmain.2, fun hend => absurd hend hmain.1⟩
      · rw [hsame]
        exact h.starting
      · rw [hsame]
        exact h.refused
  | acceptFails hmain =>
      refine ⟨h.sessions, by simp, fun k hk => ?_, by simp, by simp⟩
      exact absurd (.inl hmain) (h.refused k hk).1
  | @threadFails i hmain =>
      refine ⟨h.sessions, by simp, fun k hk => ?_, by simp, by simp⟩
      obtain rfl := Option.some.inj hk
      exact ⟨by simp [SyncMain.InLoop], h.starting i hmain⟩
  | leave hmain =>
      by_cases hempty : s.sessions.registered = ∅
      · rw [if_pos hempty]
        refine ⟨h.sessions, by simp, fun k hk => ?_, by simp, fun _ => hempty⟩
        exact ⟨by simp [SyncMain.InLoop], (h.refused k hk).2⟩
      · rw [if_neg hempty]
        refine ⟨h.sessions, by simp, fun k hk => ?_, fun _ => hempty, by simp⟩
        exact ⟨by simp [SyncMain.InLoop], (h.refused k hk).2⟩

theorem SyncReachable.inv (h : SyncReachable input s) : s.Inv input := by
  refine invariant_of_run h ?_ (fun s t hs hstep => hs.step hstep)
  refine ⟨?_, by simp [SyncServer.start], by simp [SyncServer.start],
    by simp [SyncServer.start], by simp [SyncServer.start]⟩
  constructor <;> simp [SyncServer.start, Sessions.empty]

theorem SyncServer.Inv.registered_eq (h : s.Inv input) :
    s.sessions.registered = s.sessions.accepted := by
  have hnone : s.sessions.cleared = ∅ := by
    apply Finset.eq_empty_of_forall_notMem
    intro i hi
    have hkept := (h.sessions.kept i (h.sessions.cleared hi)).1
    exact of_decide_eq_false hkept hi
  rw [h.sessions.registered, hnone, Finset.sdiff_empty]

end Threads

/-! ## A line of `syncclient` -/

/-- A reply that is not whole tells the client nothing yet. -/
theorem receiveReply_of_prefix (L : Line) {p q : Bytes} (hq : q ≠ [])
    (h : p ++ q = echoFraming.frame ((), L.chars)) : receiveReply p = none := by
  have hlt := L.length_lt
  have hsmall : L.chars.length < 2 ^ 16 := by
    simp only [clientMaxLength] at hlt
    omega
  have hlen := congrArg List.length h
  rw [List.length_append, L.length_frame] at hlen
  have hpos := List.length_pos_iff.mpr hq
  by_cases hhead : p.length < headLength
  · rw [receiveReply, if_pos hhead]
  · have htwo : (bigEndian L.chars.length).length ≤ p.length := by
      rw [length_bigEndian]
      exact not_lt.mp hhead
    obtain ⟨r, rfl⟩ : bigEndian L.chars.length <+: p :=
      List.prefix_of_prefix_length_le (L.frame_eq ▸ List.prefix_append _ _)
        (h ▸ List.prefix_append _ _) htwo
    have hcount : min (swapBytes (wordOf (bigEndian L.chars.length ++ r)))
        clientMaxLength = L.chars.length := by
      rw [swapBytes_wordOf, ofBigEndian_bigEndian hsmall, min_eq_left hlt.le]
    have hshort : (bigEndian L.chars.length ++ r).length <
        headLength + L.chars.length := by
      rw [headLength]
      omega
    simp only [receiveReply, if_neg hhead, hcount, if_pos hshort]

section Lines

variable {input : Bytes} {x : SyncSession} {L : Line}

/-- Whatever has come back of a line is nothing yet, or the line. -/
theorem Returns.receiveReply_eq (h : Returns (echoFraming.frame ((), L.chars)) x) :
    receiveReply x.sent =
      if x.stage.held ++ x.unread = [] then some (L.chars, []) else none := by
  have hinput := h.input
  split_ifs with hrest
  · rw [hrest, List.append_nil] at hinput
    rw [← hinput]
    exact receiveReply_frame_line L
  · exact receiveReply_of_prefix L hrest hinput.symm

/-- The output is overread only by the longest line that fits into `send_data`. -/
theorem Returns.length_of_overread (h : Returns (echoFraming.frame ((), L.chars)) x)
    (hfits : L.chars.length + 2 ≤ chunkSize) {chunk : Bytes}
    (hstage : x.stage = .overread chunk) : L.chars.length + 2 = chunkSize := by
  have hlen := congrArg List.length h.input
  rw [L.length_frame, List.length_append, List.length_append, hstage] at hlen
  have hfull := (h.overread chunk hstage).1
  simp only [Stage.held] at hlen
  omega

/-- The steps that the thread has still to make, for each chunk one to read, one to
print and one to write. -/
def SyncSession.rank (x : SyncSession) : ℕ :=
  3 * x.unread.length +
    match x.stage with
    | .printing _ => 2
    | .writing _ => 1
    | _ => 0

/-- The thread has neither ended nor overread its array. -/
def SyncSession.Serving (x : SyncSession) : Prop :=
  (∀ left, x.stage ≠ .ended left) ∧ ∀ chunk, x.stage ≠ .overread chunk

/-- With less than an array full to come, the thread gets on by itself. -/
theorem Returns.exists_move (h : Returns input x) (hshort : input.length < chunkSize)
    (hserving : x.Serving) (hleft : x.stage.held ++ x.unread ≠ []) :
    ∃ y, x.Moves false y ∧ y.Serving ∧ y.rank < x.rank := by
  obtain ⟨stage, unread, sent⟩ := x
  have hlen := congrArg List.length h.input
  rw [List.length_append, List.length_append] at hlen
  cases stage with
  | reading =>
      have hpos := List.length_pos_iff.mpr hleft
      simp only [Stage.held, List.nil_append] at hpos
      refine ⟨_, .readSome rfl hpos ?_, ⟨by simp, by simp⟩, ?_⟩
      · simp only at hlen ⊢
        rw [le_min_iff]
        omega
      · simp only [SyncSession.rank, List.length_drop]
        omega
  | printing chunk =>
      have hheld : chunk.length ≤ chunkSize := h.held_le
      have hprinted : (printed chunk).isSome := by
        rw [Option.isSome_iff_ne_none]
        intro hnone
        have hfull := ((printed_eq_none_iff hheld).mp hnone).1
        simp only [Stage.held] at hlen
        omega
      refine ⟨_, .print rfl, ?_, ?_⟩
      · rw [if_pos hprinted]
        exact ⟨by simp, by simp⟩
      · rw [if_pos hprinted]
        simp only [SyncSession.rank]
        omega
  | writing left =>
      have hpos := List.length_pos_iff.mpr (h.busy left (.inr rfl))
      refine ⟨_, .writeSome rfl hpos le_rfl, ?_, ?_⟩
      · rw [if_pos (List.drop_length)]
        exact ⟨by simp, by simp⟩
      · rw [if_pos (List.drop_length)]
        simp only [SyncSession.rank]
        omega
  | ended left => exact absurd rfl (hserving.1 left)
  | overread chunk => exact absurd rfl (hserving.2 chunk)

end Lines

section Service

variable {input : ι → Bytes} {s : SyncServer ι} {i : ι} {L : Line}

/-- The thread of one client brings it all that is left, whatever the others do. -/
theorem SyncServer.Inv.exists_run (h : s.Inv input) (hmain : s.main.Running)
    (hi : i ∈ s.sessions.accepted) (hshort : (input i).length < chunkSize)
    (hserving : (s.sessions.session i).Serving) :
    ∃ t, ReflTransGen SyncServer.Step s t ∧ i ∈ t.sessions.accepted ∧ t.Inv input ∧
      (t.sessions.session i).stage.held ++ (t.sessions.session i).unread = [] := by
  obtain ⟨t, hrun, ⟨hinv, -, hi', -⟩, hgoal⟩ :=
    exists_run_to_goal (I := fun t : SyncServer ι => t.Inv input ∧ t.main.Running ∧
        i ∈ t.sessions.accepted ∧ (t.sessions.session i).Serving)
      (fun t => (t.sessions.session i).rank) (by
        rintro t ⟨hinv, hmain, hi, hserving⟩ hleft
        obtain ⟨y, hmoves, hy, hlt⟩ :=
          (hinv.sessions.kept i hi).2.exists_move hshort hserving hleft
        have hstep : SyncServer.Step t { t with sessions := t.sessions.handle i false y } :=
          .session hmain (.handle hi hmoves)
        refine ⟨_, .single hstep, ⟨hinv.step hstep, hmain, hi, ?_⟩, ?_⟩
        · rwa [Sessions.session_handle_self]
        · rwa [Sessions.session_handle_self]) ⟨h, hmain, hi, hserving⟩
  exact ⟨t, hrun, hi', hinv, hgoal⟩

/-- The blocking server with any number of clients, whose threads run in any order,
with failures anywhere.  No thread is ever joined: `thread_set` has every thread that
was started, and the program ends regularly only if there never was one, and in
`std::terminate` otherwise.  Only the last client that was accepted can be without a
thread, and then the loop has been left.  What a thread has written is the beginning of
what its client has sent.  So a `syncclient` with a line that fits sees nothing or
its line, and its line as soon as its thread has no more to do; the thread gets there
by itself unless something fails or the line is the longest one, with which it may
read behind its array. -/
theorem SyncReachable.serves_lines (h : SyncReachable input s) :
    s.sessions.registered = s.sessions.accepted ∧
    (¬ s.main.Running → (s.main = .terminated ↔ s.sessions.accepted.Nonempty)) ∧
    (∀ i, s.refused = some i → ¬ s.main.InLoop ∧ i ∉ s.sessions.accepted) ∧
    ∀ i ∈ s.sessions.accepted,
      (s.sessions.session i).sent <+: input i ∧
      ∀ L : Line, 0 ∉ L.chars → L.chars.length + 2 ≤ chunkSize → input i = L.written →
        receiveReply (s.sessions.session i).sent =
          (if (s.sessions.session i).stage.held ++ (s.sessions.session i).unread = []
            then some (L.chars, []) else none) ∧
        (∀ chunk, (s.sessions.session i).stage = .overread chunk →
          L.chars.length + 2 = chunkSize) ∧
        (L.chars.length + 2 < chunkSize → s.main.Running →
          (s.sessions.session i).Serving →
          ∃ t, ReflTransGen SyncServer.Step s t ∧
            receiveReply (t.sessions.session i).sent = some (L.chars, [])) := by
  have hinv := h.inv
  have hregistered := hinv.registered_eq
  refine ⟨hregistered, ?_, hinv.refused, ?_⟩
  · intro hmain
    rw [← hregistered, Finset.nonempty_iff_ne_empty]
    refine ⟨hinv.terminated, fun hthreads => ?_⟩
    by_contra hother
    exact hmain ⟨fun hreturned => hthreads (hinv.returned hreturned), hother⟩
  · intro i hi
    have hreturns := (hinv.sessions.kept i hi).2
    refine ⟨⟨_, hreturns.input.symm⟩, ?_⟩
    intro L hzero hfits hinput
    have hwritten := Line.written_eq (Line.requestLength_eq_length_iff.mpr hzero) hfits
    rw [hwritten] at hinput
    rw [hinput] at hreturns
    refine ⟨hreturns.receiveReply_eq, fun chunk => hreturns.length_of_overread hfits, ?_⟩
    intro hlt hmain hserving
    have hshort : (input i).length < chunkSize := by
      rw [hinput, L.length_frame]
      exact hlt
    obtain ⟨t, hrun, hi', htinv, hdone⟩ := hinv.exists_run hmain hi hshort hserving
    have htreturns := (htinv.sessions.kept i hi').2
    rw [hinput] at htreturns
    refine ⟨t, hrun, ?_⟩
    rw [htreturns.receiveReply_eq, if_pos hdone]

end Service

/-! ### One line -/

def hiLine : Line :=
  ⟨ascii "hi", by decide, by decide, by decide⟩

/-- A client that sends `hi` has been accepted and has its thread. -/
def hiServer : SyncServer ℕ where
  sessions := (Sessions.empty fun _ => ⟨.reading, hiLine.written, []⟩).accept 0
  main := .accepting
  refused := none

theorem syncReachable_hiServer :
    SyncReachable (fun _ : ℕ => hiLine.written) hiServer := by
  have haccept : SyncServer.Step (SyncServer.start fun _ : ℕ => hiLine.written)
      { SyncServer.start fun _ : ℕ => hiLine.written with main := .starting 0 } :=
    .accept rfl (Finset.notMem_empty 0)
  exact .tail (.single haccept) (.startThread rfl)

theorem serves_lines_hi :
    ∃ t : SyncServer ℕ, ReflTransGen SyncServer.Step hiServer t ∧
      receiveReply (t.sessions.session 0).sent = some (ascii "hi", []) := by
  obtain ⟨-, -, -, hclients⟩ := syncReachable_hiServer.serves_lines
  have haccepted : 0 ∈ hiServer.sessions.accepted := Finset.mem_insert_self 0 ∅
  obtain ⟨-, hlines⟩ := hclients 0 haccepted
  obtain ⟨-, -, hrun⟩ := hlines hiLine (by decide) (by decide) rfl
  exact hrun (by decide) ⟨by simp [hiServer], by simp [hiServer]⟩
    ⟨by simp [hiServer, Sessions.accept, Sessions.empty],
      by simp [hiServer, Sessions.accept, Sessions.empty]⟩

end BackendLab.Echo
