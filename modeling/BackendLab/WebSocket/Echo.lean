import BackendLab.WebSocket.Sending

/-!
# Echoing messages

The read handler sets the option of the stream to the type of the message that
it has received, and sends the message.  A message that has to wait in the queue
is sent with the option as it is then, which is the type of the message received
last.
-/

namespace BackendLab.WebSocket

open Support Relation

/-- A connection whose read handlers, one after the other, are run by `reader`,
and the messages received, with their types (`true` is text), in order. -/
structure Echo (ω : Type*) where
  conn : Connection ω
  received : List (Bytes × Bool)

namespace Echo

variable {ω : Type*} {e f g : Echo ω} {reader w : ω}

def start : Echo ω := ⟨.start, []⟩

/-- Each message is sent with the type with which it was received. -/
def KeepsTypes (e : Echo ω) : Prop :=
  e.conn.initiated <+: e.received

/-- The messages received whose write has not been initiated. -/
def waiting (e : Echo ω) : List (Bytes × Bool) :=
  e.received.drop e.conn.initiated.length

/-- A message is received only while all that wait have its type. -/
def Admits (e : Echo ω) : Option (Bytes × Bool) → Prop
  | some (_, kind) => ∀ x ∈ e.waiting, x.2 = kind
  | none => True

/-- The message of the read handler, until it has been pushed. -/
def arriving (reader : ω) (s : Connection ω) : List Bytes :=
  match s.threads reader with
  | .entered msg => [s.read msg]
  | .idle | .elected _ | .returning _ => []

variable [DecidableEq ω]

/-- A message is received, or a thread goes on.  The read handler calls `text()`
and `AsyncSend`, and reads again when `AsyncSend` has returned. -/
inductive EchoStep (reader : ω) :
    Echo ω → Option (Bytes × Bool) → Echo ω → Prop
  | receive {e : Echo ω} {msg : Bytes} {kind : Bool}
      (hidle : e.conn.threads reader = .idle) :
      EchoStep reader e (some (msg, kind))
        ⟨{ e.conn with text := kind }.asyncSend reader msg,
          e.received ++ [(msg, kind)]⟩
  | other {e : Echo ω} {a : Action ω} {s : Connection ω}
      (hstep : Step e.conn a s) (ha : ∀ w msg, a ≠ .asyncSend w msg) :
      EchoStep reader e none ⟨s, e.received⟩

/-! ## What is received is pushed -/

/-- What holds in all runs: the messages pushed are those received, up to the one
that the read handler is about to push. -/
structure Sound (reader : ω) (e : Echo ω) : Prop where
  owned : e.conn.StringsOwned
  orderly : e.conn.election.Orderly
  received : e.received.map Prod.fst = e.conn.pushed ++ arriving reader e.conn
  others : ∀ w, w ≠ reader → ∀ msg, e.conn.threads w ≠ .entered msg

omit [DecidableEq ω] in
theorem arriving_eq_nil {s : Connection ω}
    (h : ∀ msg, s.threads reader ≠ .entered msg) : arriving reader s = [] := by
  rw [arriving]
  split
  · next msg heq => exact absurd heq (h msg)
  · rfl
  · rfl
  · rfl

omit [DecidableEq ω] in
theorem arriving_congr {s t : Connection ω}
    (hframe : t.threads reader = s.threads reader)
    (hvalue : ∀ c ∈ (s.threads reader).variables,
      t.strings.value c = s.strings.value c) :
    arriving reader t = arriving reader s := by
  rw [arriving, arriving, hframe]
  cases hreader : s.threads reader with
  | entered msg =>
      have hmem : msg ∈ (s.threads reader).variables := by
        simp [hreader, Frame.variables]
      simp only [Connection.read_congr (hvalue msg hmem)]
  | idle | elected _ | returning _ => rfl

/-- A step that neither calls `AsyncSend` nor pushes. -/
theorem Sound.received_congr (h : Sound reader e) {a : Action ω}
    {s : Connection ω} (hstep : Step e.conn a s) (hpushed : s.pushed = e.conn.pushed)
    (hbefore : ∀ msg, e.conn.threads a.thread ≠ .entered msg)
    (hafter : ∀ msg, s.threads a.thread ≠ .entered msg) :
    Sound reader ⟨s, e.received⟩ := by
  refine ⟨h.owned.step hstep, Connection.Orderly.step h.owned h.orderly hstep,
    ?_, ?_⟩
  · rw [hpushed, h.received]
    by_cases hreader : reader = a.thread
    · rw [arriving_eq_nil (by rwa [hreader]), arriving_eq_nil (by rwa [hreader])]
    · obtain ⟨hframe, hvalue⟩ := h.owned.frame_of_step hstep hreader
      rw [arriving_congr hframe hvalue]
  · intro w hw msg
    by_cases hthread : w = a.thread
    · rw [hthread]
      exact hafter msg
    · rw [(h.owned.frame_of_step hstep hthread).1]
      exact h.others w hw msg

theorem Sound.other (h : Sound reader e) {a : Action ω} {s : Connection ω}
    (hstep : Step e.conn a s) (ha : ∀ w msg, a ≠ .asyncSend w msg) :
    Sound reader ⟨s, e.received⟩ := by
  cases hstep with
  | asyncSend _ => exact absurd rfl (ha _ _)
  | @push w msg hw =>
      obtain rfl : w = reader := by
        by_contra hne
        exact h.others w hne msg hw
      have hafter : ∀ c, (e.conn.push w msg).threads w ≠ .entered c := by
        intro c
        simp only [Connection.push, Function.update_self]
        split
        · simp
        · simp
      refine ⟨h.owned.push hw, ?_, ?_, ?_⟩
      · rw [h.owned.election_push hw]
        exact h.orderly.push _ _
      · have hbefore : arriving w e.conn = [e.conn.read msg] := by
          simp only [arriving, hw]
        rw [h.received, hbefore, arriving_eq_nil hafter, List.append_nil]
        rfl
      · intro v hv c
        rw [(h.owned.frame_of_step (.push hw) hv).1]
        exact h.others v hv c
  | @sendCallBack w msg hw =>
      exact h.received_congr (.sendCallBack hw) rfl
        (by simp [Action.thread, hw])
        (by simp [Action.thread, Connection.sendCallBack])
  | leave hw =>
      exact h.received_congr (.leave hw) rfl (by simp [Action.thread, hw])
        (by simp [Action.thread, Connection.leave])
  | rest hw =>
      exact h.received_congr (.rest hw) rfl (by simp [Action.thread, hw])
        (by simp [Action.thread, Connection.rest])
  | complete hw hx =>
      refine h.received_congr (.complete hw hx) ?_ (by simp [Action.thread, hw]) ?_
      · rw [Connection.complete]
        split <;> rfl
      · rw [Connection.complete]
        split
        · simp [Action.thread, hw]
        · simp [Action.thread, hw]
        · simp [Action.thread]

theorem Sound.receive (h : Sound reader e)
    (hidle : e.conn.threads reader = .idle) (msg : Bytes) (kind : Bool) :
    Sound reader ⟨{ e.conn with text := kind }.asyncSend reader msg,
      e.received ++ [(msg, kind)]⟩ := by
  -- the option is read by `async_write` only
  have howned : ({ e.conn with text := kind } : Connection ω).StringsOwned :=
    ⟨h.owned.exclusive, h.owned.complete, h.owned.queue_nodup,
      h.owned.frame_nodup, h.owned.buffer_lt, h.owned.buffer_notMem,
      h.owned.captured_eq⟩
  have hstep : Step { e.conn with text := kind } (.asyncSend reader msg)
      ({ e.conn with text := kind }.asyncSend reader msg) := .asyncSend hidle
  refine ⟨howned.step hstep, ?_, ?_, ?_⟩
  · rw [howned.election_asyncSend hidle]
    exact h.orderly
  · have hbefore : arriving reader e.conn = [] :=
      arriving_eq_nil (by simp [hidle])
    have hafter : arriving reader
        ({ e.conn with text := kind }.asyncSend reader msg) = [msg] := by
      simp [arriving, Connection.asyncSend, Connection.read]
    rw [List.map_append, h.received, hbefore, hafter, List.append_nil]
    rfl
  · intro w hw c
    rw [(howned.frame_of_step hstep hw).1]
    exact h.others w hw c

theorem Sound.step (h : Sound reader e) {l : Option (Bytes × Bool)}
    (hstep : EchoStep reader e l f) : Sound reader f := by
  cases hstep with
  | receive hidle => exact h.receive hidle _ _
  | other hstep ha => exact h.other hstep ha

omit [DecidableEq ω] in
theorem sound_start : Sound reader (start : Echo ω) where
  owned := Connection.stringsOwned_start
  orderly := Election.orderly_empty
  received := rfl
  others := by simp [start, Connection.start]

/-! ## Types -/

/-- What a step other than a call of `AsyncSend` sends. -/
theorem initiated_of_step {s t : Connection ω} {a : Action ω}
    (hstep : Step s a t) :
    t.text = s.text ∧
      (t.initiated = s.initiated ∨
        ∃ msg, t.initiated = s.initiated ++ [(msg, s.text)]) := by
  cases hstep with
  | sendCallBack _ => exact ⟨rfl, Or.inr ⟨_, rfl⟩⟩
  | complete _ _ =>
      rw [Connection.complete]
      split <;> exact ⟨rfl, Or.inl rfl⟩
  | _ => exact ⟨rfl, Or.inl rfl⟩

/-- The first of the messages that wait, and its type. -/
theorem prefix_concat {α β : Type*} {xs ys : List (α × β)} {a : α} {b : β}
    (hinitial : xs <+: ys) (hfst : xs.map Prod.fst ++ [a] <+: ys.map Prod.fst)
    (hsnd : ∀ y ∈ ys.drop xs.length, y.2 = b) : xs ++ [(a, b)] <+: ys := by
  obtain ⟨zs, rfl⟩ := hinitial
  rw [List.map_append, List.prefix_append_right_inj] at hfst
  rw [List.drop_left] at hsnd
  cases zs with
  | nil => simp at hfst
  | cons z zs =>
      have hz : z = (a, b) := by
        obtain ⟨rest, hrest⟩ := hfst
        have hhead : a = z.1 := (List.cons.inj hrest).1
        exact Prod.ext hhead.symm (hsnd z List.mem_cons_self)
      rw [hz, List.prefix_append_right_inj]
      exact ⟨zs, rfl⟩

/-- All messages so far have been sent with their types, and those that wait have
the type that the option has now. -/
structure Matched (e : Echo ω) : Prop where
  keeps : e.KeepsTypes
  waiting : ∀ x ∈ e.waiting, x.2 = e.conn.text

omit [DecidableEq ω] in
theorem matched_start : (start : Echo ω).Matched :=
  ⟨List.prefix_refl _, by simp [Echo.waiting, start]⟩

omit [DecidableEq ω] in
/-- A message is received, with the type of those that wait. -/
theorem Matched.receive (h : e.Matched) {msg : Bytes} {kind : Bool}
    (hl : e.Admits (some (msg, kind))) (hf : f.received = e.received ++ [(msg, kind)])
    (hinitiated : f.conn.initiated = e.conn.initiated)
    (htext : f.conn.text = kind) : f.Matched := by
  refine ⟨?_, ?_⟩
  · rw [KeepsTypes, hf, hinitiated]
    exact h.keeps.trans (List.prefix_append _ _)
  · intro x hx
    rw [Echo.waiting, hf, hinitiated,
      List.drop_append_of_le_length h.keeps.length_le, List.mem_append,
      List.mem_singleton] at hx
    rw [htext]
    rcases hx with hx | rfl
    · exact hl x hx
    · rfl

theorem Matched.step (h : e.Matched) (hsound : Sound reader e)
    {l : Option (Bytes × Bool)} (hstep : EchoStep reader e l f)
    (hl : e.Admits l) : f.Matched := by
  have hnext := hsound.step hstep
  cases hstep with
  | receive hidle => exact h.receive hl rfl rfl rfl
  | @other a s hstep ha =>
      obtain ⟨htext, hsame | ⟨msg, hmsg⟩⟩ := initiated_of_step hstep
      · refine ⟨?_, ?_⟩
        · rw [KeepsTypes]
          simp only [hsame]
          exact h.keeps
        · intro x hx
          simp only [Echo.waiting, hsame] at hx
          exact (h.waiting x hx).trans htext.symm
      · -- the message is the first of those that wait
        have hpushed : e.conn.initiated.map Prod.fst ++ [msg] <+:
            e.received.map Prod.fst := by
          have hstarted := hnext.orderly.started_isPrefix
          simp only [Connection.election, hmsg, List.map_append,
            List.map_cons, List.map_nil] at hstarted
          refine hstarted.trans ?_
          have hreceived := hnext.received
          simp only at hreceived
          rw [hreceived]
          exact List.prefix_append _ _
        have hkeeps : s.initiated <+: e.received := by
          rw [hmsg]
          exact prefix_concat h.keeps hpushed h.waiting
        refine ⟨hkeeps, ?_⟩
        intro x hx
        simp only [Echo.waiting, hmsg, List.length_append,
          List.length_singleton] at hx
        refine (h.waiting x ?_).trans htext.symm
        rw [← List.drop_drop] at hx
        exact List.mem_of_mem_drop hx

/-- A message has been received after those of `e`, and whatever has been sent
since has its type. -/
structure Since (e : Echo ω) (msg : Bytes) (kind : Bool) (g : Echo ω) : Prop where
  received : g.received = e.received ++ [(msg, kind)]
  text : g.conn.text = kind
  initiated : ∃ more, g.conn.initiated = e.conn.initiated ++ more ∧
    ∀ x ∈ more, x.2 = kind

theorem Since.step {msg : Bytes} {kind : Bool} (h : Since e msg kind f)
    (hstep : EchoStep reader f none g) : Since e msg kind g := by
  cases hstep with
  | other hstep ha =>
      obtain ⟨more, hmore, hkind⟩ := h.initiated
      obtain ⟨htext, hsame | ⟨m, hm⟩⟩ := initiated_of_step hstep
      · exact ⟨h.received, htext.trans h.text, more, hsame.trans hmore, hkind⟩
      · refine ⟨h.received, htext.trans h.text, more ++ [(m, kind)], ?_, ?_⟩
        · rw [hm, hmore, h.text, List.append_assoc]
        · intro x hx
          rcases List.mem_append.mp hx with hx | hx
          · exact hkind x hx
          · rw [List.mem_singleton.mp hx]

omit [DecidableEq ω] in
/-- One of those that waited had another type. -/
theorem Since.not_keepsTypes {msg : Bytes} {kind : Bool} (h : Since e msg kind g)
    (hl : ¬ e.Admits (some (msg, kind)))
    (hall : g.received.length ≤ g.conn.initiated.length) : ¬ g.KeepsTypes := by
  obtain ⟨more, hmore, hkind⟩ := h.initiated
  intro hkeeps
  have heq : g.conn.initiated = g.received := hkeeps.eq_of_length_le hall
  simp only [Admits, not_forall] at hl
  obtain ⟨x, hx, hne⟩ := hl
  refine hne (hkind x ?_)
  have hdrop : more =
      (e.received ++ [(msg, kind)]).drop e.conn.initiated.length := by
    rw [← h.received, ← heq, hmore, List.drop_left]
  rw [hdrop, List.drop_append]
  exact List.mem_append_left _ hx

/-- In a run in which messages are received only while all that wait have their
type, each message is sent with its type.  After a message that is received while
one of another type waits, and with no other message, not all that are sent have
theirs. -/
theorem keepsTypes
    (hrun : ReflTransGen (fun e f => ∃ l, EchoStep reader e l f ∧ e.Admits l)
      start e) :
    e.KeepsTypes ∧
      ∀ msg kind f g, EchoStep reader e (some (msg, kind)) f →
        ¬ e.Admits (some (msg, kind)) →
        ReflTransGen (fun f g => EchoStep reader f none g) f g →
        g.received.length ≤ g.conn.initiated.length → ¬ g.KeepsTypes := by
  have hall : Sound reader e ∧ e.Matched := by
    refine invariant_of_run (I := fun e : Echo ω => Sound reader e ∧ e.Matched)
      hrun ⟨sound_start, matched_start⟩ ?_
    rintro e f ⟨hsound, hmatched⟩ ⟨l, hstep, hl⟩
    exact ⟨hsound.step hstep, hmatched.step hsound hstep hl⟩
  refine ⟨hall.2.keeps, ?_⟩
  intro msg kind f g hstep hl hrest
  have hfirst : Since e msg kind f := by
    cases hstep with
    | receive hidle => exact ⟨rfl, rfl, [], (List.append_nil _).symm, by simp⟩
  have hlast : Since e msg kind g := by
    apply invariant_of_run hrest hfirst
    intro f g hf hstep
    exact hf.step hstep
  exact hlast.not_keepsTypes hl

/-- The text `A` is received, and is being written. -/
theorem start_reaches_text :
    ReflTransGen
      (fun e f : Echo (Fin 2) => ∃ l, EchoStep 0 e l f ∧ e.Admits l) start
      ⟨Connection.sent [65], [([65], true)]⟩ := by
  let s₁ : Connection (Fin 2) := Connection.start.asyncSend 0 [65]
  let s₂ := s₁.push 0 0
  have h₁ : EchoStep 0 start (some ([65], true)) ⟨s₁, [([65], true)]⟩ :=
    .receive rfl
  have h₂ : EchoStep 0 ⟨s₁, [([65], true)]⟩ none ⟨s₂, [([65], true)]⟩ :=
    .other (.push rfl) (by simp)
  have h₃ : EchoStep 0 ⟨s₂, [([65], true)]⟩ none
      ⟨Connection.sent [65], [([65], true)]⟩ :=
    .other (.sendCallBack rfl) (by simp)
  exact ((ReflTransGen.single ⟨_, h₁, by simp [Admits, waiting, start]⟩).tail
    ⟨_, h₂, trivial⟩).tail ⟨_, h₃, trivial⟩

theorem keepsTypes_text :
    (Connection.sent [65]).initiated = [([65], true)] ∧
      KeepsTypes ⟨Connection.sent [65], [([65], true)]⟩ :=
  ⟨rfl, (keepsTypes start_reaches_text).1⟩

/-- While the text `A` is being written, the binary message `B` is received and,
before `A` is done, the text `C`: then `B` is sent as text. -/
theorem not_keepsTypes_mixed :
    ∃ e : Echo (Fin 2),
      ReflTransGen (fun e f => ∃ l, EchoStep 0 e l f) start e ∧
      e.received = [([65], true), ([66], false), ([67], true)] ∧
      e.conn.initiated = [([65], true), ([66], true)] ∧ ¬ e.KeepsTypes := by
  let r₁ : List (Bytes × Bool) := [([65], true)]
  let r₂ : List (Bytes × Bool) := [([65], true), ([66], false)]
  let r₃ : List (Bytes × Bool) := [([65], true), ([66], false), ([67], true)]
  let s₁ := (Connection.sent [65]).leave 0 2 [0]
  let s₂ := s₁.leave 0 0 []
  let s₃ := s₂.rest 0
  let s₄ := { s₃ with text := false }.asyncSend 0 [66]
  let s₅ := s₄.push 0 3
  let s₆ := s₅.leave 0 3 []
  let s₇ := s₆.rest 0
  let s₈ := { s₇ with text := true }.asyncSend 0 [67]
  let s₉ := s₈.complete 1 ⟨2, [], [65]⟩
  let s₁₀ := s₉.sendCallBack 1 6
  have h₁ : EchoStep 0 ⟨Connection.sent [65], r₁⟩ none ⟨s₁, r₁⟩ :=
    .other (.leave rfl) (by simp)
  have h₂ : EchoStep 0 ⟨s₁, r₁⟩ none ⟨s₂, r₁⟩ := .other (.leave rfl) (by simp)
  have h₃ : EchoStep 0 ⟨s₂, r₁⟩ none ⟨s₃, r₁⟩ := .other (.rest rfl) (by simp)
  have h₄ : EchoStep 0 ⟨s₃, r₁⟩ (some ([66], false)) ⟨s₄, r₂⟩ := .receive rfl
  have h₅ : EchoStep 0 ⟨s₄, r₂⟩ none ⟨s₅, r₂⟩ := .other (.push rfl) (by simp)
  have h₆ : EchoStep 0 ⟨s₅, r₂⟩ none ⟨s₆, r₂⟩ := .other (.leave rfl) (by simp)
  have h₇ : EchoStep 0 ⟨s₆, r₂⟩ none ⟨s₇, r₂⟩ := .other (.rest rfl) (by simp)
  have h₈ : EchoStep 0 ⟨s₇, r₂⟩ (some ([67], true)) ⟨s₈, r₃⟩ := .receive rfl
  have h₉ : EchoStep 0 ⟨s₈, r₃⟩ none ⟨s₉, r₃⟩ :=
    .other (.complete rfl (by decide)) (by simp)
  have h₁₀ : EchoStep 0 ⟨s₉, r₃⟩ none ⟨s₁₀, r₃⟩ :=
    .other (.sendCallBack rfl) (by simp)
  have hfirst : ReflTransGen (fun e f : Echo (Fin 2) => ∃ l, EchoStep 0 e l f)
      start ⟨Connection.sent [65], r₁⟩ := by
    refine ReflTransGen.mono ?_ _ _ start_reaches_text
    rintro e f ⟨l, hstep, -⟩
    exact ⟨l, hstep⟩
  have hrun := (((((((((hfirst.tail ⟨_, h₁⟩).tail ⟨_, h₂⟩).tail ⟨_, h₃⟩).tail
    ⟨_, h₄⟩).tail ⟨_, h₅⟩).tail ⟨_, h₆⟩).tail ⟨_, h₇⟩).tail ⟨_, h₈⟩).tail
    ⟨_, h₉⟩).tail ⟨_, h₁₀⟩
  have hinitiated : s₁₀.initiated = [([65], true), ([66], true)] := rfl
  refine ⟨⟨s₁₀, r₃⟩, hrun, rfl, hinitiated, ?_⟩
  rw [KeepsTypes, hinitiated]
  decide

end Echo

end BackendLab.WebSocket
