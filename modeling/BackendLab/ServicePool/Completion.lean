import BackendLab.ServicePool.Draining
import BackendLab.ServicePool.Lockstep

/-!
# A conversation can always be completed

From every state of a conversation in which the client is still in its loop and
nothing has failed, some steps lead to the end of the client's input, with the
reply to every request shown.
-/

namespace BackendLab.ServicePool

open Support Relation

variable {ι σ : Type*} {ν : Type} {P : ReadingHalf σ} {j : JsonCpp ν}
  [DecidableEq ι] {i : ι}

/-- Nothing has failed at the session, nobody stops the logic system, and the
messages of the other sessions have replies that can be made. -/
structure Sound (P : ReadingHalf σ) (j : JsonCpp ν) (i : ι) (s : Server ι σ) :
    Prop where
  whole : (s.peer i).broken = false
  running : s.logic.bStop = false
  harmless : ∀ k, k ≠ i → ∀ m ∈ P.messages (s.peer k).arrived, Harmless j m

theorem Sound.step {s t : Server ι σ} (hs : Sound P j i s)
    (h : InnerStep P j s t) : Sound P j i t where
  whole := (h.broken i).trans hs.whole
  running := h.bStop.trans hs.running
  harmless := by
    intro k hk
    rw [h.arrived k]
    exact hs.harmless k hk

/-- Steps that the server makes by itself are steps of the conversation. -/
theorem lift_run {x : Conversation ι σ ν} {t : Server ι σ}
    (h : ReflTransGen (InnerStep P j) x.server t) (hs : Sound P j i x.server) :
    ReflTransGen (ConversationStep P j i) x { x with server := t } ∧
      Sound P j i t ∧
      (t.peer i).arrived = (x.server.peer i).arrived := by
  induction h with
  | refl => exact ⟨.refl, hs, rfl⟩
  | tail _ hstep ih =>
      obtain ⟨hrun, hsound, harrived⟩ := ih
      exact ⟨hrun.tail (.server hstep.step (hstep.arrived i)),
        hsound.step hstep, (hstep.arrived i).trans harrived⟩

/-- Behind the frames of messages the session goes on reading. -/
def ReadingHalf.Sane (P : ReadingHalf σ) : Prop :=
  ∀ ms : List (ℤ × Bytes), (∀ m ∈ ms, Sendable m) →
    P.reader.request (P.reader.read P.start (ms.flatMap encode)).1 ≠ none

section Sane

variable {ms : List (ℤ × Bytes)} (hms : ∀ m ∈ ms, Sendable m)
include hms

omit [DecidableEq ι] in
theorem ReadingHalf.Sane.defined (hsane : P.Sane) :
    P.Defined (P.reader.read P.start (ms.flatMap encode)).1 := by
  by_contra hnot
  exact hsane ms hms (P.request_of_not_defined _ hnot)

omit [DecidableEq ι] in
theorem ReadingHalf.Sane.not_closed (hsane : P.Sane) :
    P.Closed (P.reader.read P.start (ms.flatMap encode)).1 = false := by
  by_contra hclosed
  rw [Bool.not_eq_false] at hclosed
  exact hsane ms hms (P.request_of_closed _ hclosed)

end Sane

namespace InStep

variable {overhead : ℕ} {escaped : Bytes → ℕ} {input told : List Bytes}
  {x : Conversation ι σ ν}

theorem sendable (hx : InStep P j i input told x)
    (hc : Compatible P j overhead escaped input) :
    ∀ m ∈ x.client.asked.map (requestFor j), Sendable m := by
  intro m hm
  obtain ⟨line, hline, rfl⟩ := List.mem_map.mp hm
  exact (hx.answerable hc line hline).sendable hc.documented hc.overhead_pos

theorem harmless (hx : InStep P j i input told x)
    (hc : Compatible P j overhead escaped input) :
    ∀ m ∈ x.client.asked.map (requestFor j), Harmless j m := by
  intro m hm call hcall
  obtain ⟨line, hline, rfl⟩ := List.mem_map.mp hm
  have hok := (hx.answerable hc line hline).isOk_replyTo hc.documented
  rw [Answerable.answer_eq hc.documented] at hcall
  rw [← Option.some.inj hcall]
  intro herror
  rw [herror] at hok
  cases hok

/-- All that the client has sent has arrived, and the session is quiet.  Then all
the replies have been written. -/
theorem written_of_quiet (hx : InStep P j i input told x)
    (hc : Compatible P j overhead escaped input) (hs : Sound P j i x.server)
    (hstage : x.client.stage ≠ .ended)
    (harrived : (x.server.peer i).arrived = x.client.sent)
    (hquiet : Quiet P x.server i) :
    (x.server.peer i).transmitted =
      x.client.asked.flatMap fun line => (replyTo j line).encoding := by
  have hinv := (hx.server.peer_alone i).invariant
  have hsettles : Settles P j (fun k => (x.server.peer k).arrived) i x.server :=
    ⟨hx.server, fun _ => rfl, hs.whole, hs.running⟩
  have hhandled : (x.server.peer i).handled =
      x.client.asked.map (requestFor j) := by
    rw [hsettles.handled_of_quiet hquiet, harrived, hx.sent_eq hstage,
      hc.restores _ (hx.sendable hc)]
  have hqueue : (x.server.peer i).sender.sendQue.queue = [] := by
    by_contra hne
    exact (hinv.orderly hs.whole).outstanding_ne_nil_iff.mpr hne
      hquiet.outstanding
  have hbytes := hinv.bytes_content
  rw [WriteQueue.content, hqueue, List.append_nil, hx.accepted, hhandled,
    replies_requestFor hc.documented (hx.answerable hc), List.flatMap_map] at hbytes
  rw [Peer.transmitted, hquiet.outstanding, List.append_nil, hbytes]

/-- What the client waits for comes to its socket. -/
theorem exists_received (hx : InStep P j i input told x)
    (hc : Compatible P j overhead escaped input) (hsane : P.Sane)
    (hs : Sound P j i x.server) (hstage : x.client.stage ≠ .ended) :
    ∃ t bytes, ReflTransGen (ConversationStep P j i) x
        ⟨t, x.client.receive bytes⟩ ∧
      Sound P j i t ∧
      x.client.received ++ bytes =
        x.client.asked.flatMap fun line => (replyTo j line).encoding := by
  -- The rest of the requests is carried to the session.
  obtain ⟨rest, hrest⟩ := hx.arrived
  have hcarry : (x.server.peer i).arrived ++ rest <+: x.client.sent := by
    rw [hrest]
  let y : Conversation ι σ ν :=
    { x with server := x.server.setPeer i ((x.server.peer i).arrive rest) }
  have hopen : P.Closed (P.reader.read P.start x.client.sent).1 = false := by
    rw [hx.sent_eq hstage]
    exact hsane.not_closed (hx.sendable hc)
  have hnotClosed : (x.server.peer i).closed = false :=
    (hx.server.peer_alone i).invariant.closed_eq_false hs.whole hx.arrived hopen
  have hxy : ConversationStep P j i x y := .carry hcarry hnotClosed
  have hy : InStep P j i input told y := hx.carry hcarry hnotClosed
  have harrived : (y.server.peer i).arrived = x.client.sent := by
    simp only [y, Server.peer_setPeer_self]
    exact hrest
  have hsound : Sound P j i y.server := by
    refine ⟨?_, hs.running, ?_⟩
    · simp only [y, Server.peer_setPeer_self]
      exact hs.whole
    · intro k hk
      simp only [y, Server.peer_setPeer_of_ne hk]
      exact hs.harmless k hk
  -- The server comes to rest.
  have hsettles : Settles P j (fun k => (y.server.peer k).arrived) i y.server :=
    ⟨hy.server, fun _ => rfl, hsound.whole, hsound.running⟩
  have hmessages : P.messages (y.server.peer i).arrived =
      x.client.asked.map (requestFor j) := by
    rw [harrived, hx.sent_eq hstage, hc.restores _ (hx.sendable hc)]
  obtain ⟨t, hrun, hquiet⟩ := hsettles.exists_quiet
    (by
      intro k m hm
      by_cases hk : k = i
      · subst hk
        rw [hmessages] at hm
        exact hx.harmless hc m hm
      · exact hsound.harmless k hk m hm)
    (by
      rw [harrived, hx.sent_eq hstage]
      exact hsane.defined (hx.sendable hc))
    (by rwa [harrived])
  obtain ⟨hyt, ht, hsame⟩ := lift_run hrun hsound
  obtain ⟨told', hz⟩ := hy.of_run hc hyt
  have hwritten := hz.written_of_quiet hc ht hstage (hsame.trans harrived) hquiet
  -- The rest of the replies is carried to the client.
  obtain ⟨bytes, hbytes⟩ := hz.received_isPrefix hc
  refine ⟨t, bytes, (ReflTransGen.head hxy hyt).tail (.giveBack ?_), ht, hbytes⟩
  rw [hwritten, ← hbytes]

/-- A client that waits for a reply comes back to its prompt, with its input as
it was. -/
theorem exists_prompting (hx : InStep P j i input told x)
    (hc : Compatible P j overhead escaped input) (hsane : P.Sane)
    (hs : Sound P j i x.server) (hstage : x.client.stage ≠ .ended) :
    ∃ y told', ReflTransGen (ConversationStep P j i) x y ∧
      InStep P j i input told' y ∧ Sound P j i y.server ∧
      y.client.stage = .prompting ∧ y.client.lines = x.client.lines := by
  obtain ⟨t, bytes, hrun, ht, hall⟩ := hx.exists_received hc hsane hs hstage
  obtain ⟨told', hy⟩ := hx.of_run hc hrun
  have hreply {line : Bytes} (hline : line ∈ x.client.asked) :=
    (hx.answerable hc line hline).encoding_eq hc.documented
  cases hx.turn with
  | prompting hprompting hasked hreceived =>
      exact ⟨_, told', hrun, hy, ht, hprompting, rfl⟩
  | @head line hhead hasked hreceived =>
      have hinbox : x.client.inbox ++ bytes =
          replyHead j line ++ j.toStyledString (replyObject j line) := by
        rw [← hreply (by rw [hasked]; simp)]
        rw [hreceived, hasked, List.flatMap_append, List.append_assoc,
          List.append_cancel_left_eq, List.flatMap_singleton] at hall
        exact hall
      have hanswerable := hx.answerable hc line (by rw [hasked]; simp)
      let c := (x.client.receive bytes).readHead
      have hread : c = _ :=
        readHead_replyHead (c := x.client.receive bytes) hanswerable hc.documented
          hinbox
      have hhead' : ClientStep j (x.client.receive bytes) c :=
        .readHead hhead (by
          simp only [JsonClient.receive, hinbox, List.length_append,
            length_replyHead]
          omega)
      have hbody : ClientStep j c (c.readBody j (toUInt16 msgHelloWorld)
          (j.toStyledString (replyObject j line)).length) :=
        .readBody (by rw [hread]) (by rw [hread])
      have hshown := readBody_reply hc.documented
        (show c.inbox = j.toStyledString (replyObject j line) by rw [hread])
      obtain ⟨told1, h1⟩ := hy.client_step hc hhead'
      obtain ⟨told2, h2⟩ := h1.client_step hc hbody
      refine ⟨_, told2, (hrun.tail (.client hhead')).tail (.client hbody), h2, ht,
        ?_, ?_⟩
      · rw [hshown]
      · rw [hshown, hread]
        rfl
  | @body line hbody hasked hreceived =>
      have hinbox : x.client.inbox ++ bytes =
          j.toStyledString (replyObject j line) := by
        rw [hreceived, hasked, List.flatMap_append, List.append_assoc,
          List.append_cancel_left_eq, List.flatMap_singleton,
          hreply (by rw [hasked]; simp), List.append_assoc,
          List.append_cancel_left_eq] at hall
        exact hall
      have hstep : ClientStep j (x.client.receive bytes)
          ((x.client.receive bytes).readBody j (toUInt16 msgHelloWorld)
            (j.toStyledString (replyObject j line)).length) :=
        .readBody hbody (by rw [JsonClient.receive, hinbox])
      have hshown := readBody_reply (c := x.client.receive bytes) hc.documented
        hinbox
      obtain ⟨told1, h1⟩ := hy.client_step hc hstep
      refine ⟨_, told1, hrun.tail (.client hstep), h1, ht, ?_, ?_⟩
      · rw [hshown]
      · rw [hshown]
        rfl
  | ended hended => exact absurd hended hstage

/-- At the prompt the client has been told the replies to all the lines that it
has asked. -/
theorem shown_eq (hx : InStep P j i input told x)
    (hstage : x.client.stage = .prompting) :
    x.client.shown = x.client.asked.map (shownFor j) := by
  cases hx.turn with
  | prompting _ hasked hreceived => rw [hx.shown, hasked]
  | head hother | body hother | ended hother =>
      rw [hstage] at hother
      cases hother

end InStep

/-- The lines of the input up to the one with which the client is left. -/
def untilQuit (input : List Bytes) : List Bytes :=
  input.takeWhile (· ≠ ascii "quit")

theorem untilQuit_append {consumed rest : List Bytes}
    (h : ascii "quit" ∉ consumed) :
    untilQuit (consumed ++ rest) = consumed ++ untilQuit rest := by
  rw [untilQuit, List.takeWhile_append_of_pos]
  · rfl
  · intro line hline
    simp only [decide_eq_true_eq]
    rintro rfl
    exact h hline

namespace InStep

variable {overhead : ℕ} {escaped : Bytes → ℕ} {input told : List Bytes}
  {x : Conversation ι σ ν}

/-- The client leaves its loop at the prompt with all its replies. -/
theorem shown_of_left (hx : InStep P j i input told x)
    (hstage : x.client.stage = .prompting)
    (hleft : untilQuit x.client.lines = []) :
    x.client.shown = (asks j (untilQuit input)).map (shownFor j) := by
  obtain ⟨consumed, hinput, hasked, hquit⟩ := hx.asked
  rw [hx.shown_eq hstage, hasked, hinput, untilQuit_append (hquit (by simp [hstage])),
    hleft, List.append_nil]

/-- From the prompt the client comes to the end of its input.  The lines that are
left are fewer at every prompt. -/
theorem exists_complete (hx : InStep P j i input told x)
    (hc : Compatible P j overhead escaped input) (hsane : P.Sane)
    (hs : Sound P j i x.server) (hstage : x.client.stage = .prompting) :
    ∃ y, ReflTransGen (ConversationStep P j i) x y ∧ y.client.stage = .ended ∧
      y.client.shown = (asks j (untilQuit input)).map (shownFor j) := by
  induction hn : x.client.lines.length using Nat.strongRecOn
    generalizing x told with
  | _ n ih =>
      have hprompt : ConversationStep P j i x { x with client := x.client.prompt j } :=
        .client (.prompt hstage)
      have hy := hx.prompt hc hstage
      cases hlines : x.client.lines with
      | nil =>
          refine ⟨_, .single hprompt, ?_, ?_⟩
          · simp only [JsonClient.prompt, hlines]
          · simp only [JsonClient.prompt, hlines]
            exact hx.shown_of_left hstage (by rw [hlines]; rfl)
      | cons line lines =>
          rw [hlines, List.length_cons] at hn
          by_cases hquit : line = ascii "quit"
          · refine ⟨_, .single hprompt, ?_, ?_⟩
            · simp only [JsonClient.prompt, hlines, if_pos hquit]
            · simp only [JsonClient.prompt, hlines, if_pos hquit]
              exact hx.shown_of_left hstage (by simp [hlines, hquit, untilQuit])
          · have hlines' : (x.client.prompt j).lines = lines ∧
                (x.client.prompt j).stage ≠ .ended := by
              simp only [JsonClient.prompt, hlines, if_neg hquit]
              cases JsonClient.request j line with
              | none => exact ⟨rfl, by simp [hstage]⟩
              | some request => exact ⟨rfl, by simp⟩
            obtain ⟨y, told', hxy, hy', hsound, hstage', hsame⟩ :=
              hy.exists_prompting hc hsane hs hlines'.2
            obtain ⟨z, hyz, hz⟩ := ih lines.length (by omega) hy' hsound hstage'
              (by rw [hsame, hlines'.1])
            exact ⟨z, (ReflTransGen.head hprompt hxy).trans hyz, hz⟩

end InStep

theorem restores_handlers : handlers.Restores :=
  fun _ => messages_handlers

theorem sane_handlers : handlers.Sane := by
  intro ms hms
  simp only [handlers, read_encoded hms]
  exact Option.some_ne_none headTotalLen

/-- The lines `hi`, an empty one, and `quit`. -/
def shortInput : List Bytes := [ascii "hi", [], ascii "quit"]

theorem compatible_short :
    Compatible handlers styled 31 (fun data => (JsonMessage.escape data).length)
      shortInput where
  restores := restores_handlers
  documented := documented_styled
  overhead_pos := by decide
  room := by
    intro line hline hsome
    simp only [shortInput, List.mem_cons, List.not_mem_nil, or_false] at hline
    rcases hline with rfl | rfl | rfl
    · exact ⟨by decide, by decide⟩
    · exact absurd hsome (by decide)
    · exact absurd hsome (by decide)

theorem sound_start (P : ReadingHalf σ) (j : JsonCpp ν) :
    Sound P j () (Server.start P) :=
  ⟨rfl, rfl, fun _ hk => absurd rfl hk⟩

theorem asks_short : asks styled (untilQuit shortInput) = [ascii "hi"] := by
  decide

/-- At the end the client has asked for the line of which it has been shown the
reply. -/
theorem replies_in_turn_short :
    ∃ y : Conversation Unit ReadSession JsonMessage,
      ConversationReachable handlers styled () shortInput y ∧
        y.client.shown = [shownFor styled (ascii "hi")] ∧
        y.client.shown <+: y.client.asked.map (shownFor styled) ∧
        (y.server.peer ()).sender.sendQue.queue.length ≤ 2 := by
  obtain ⟨y, hrun, -, hshown⟩ :=
    (inStep_start handlers styled () shortInput).exists_complete compatible_short
      sane_handlers (sound_start handlers styled) rfl
  have hturn := ConversationReachable.replies_in_turn hrun compatible_short
  refine ⟨y, hrun, ?_, hturn.2.1, hturn.2.2.2.1⟩
  rw [hshown, asks_short, List.map_singleton]

end BackendLab.ServicePool
