import OsProjects.Runs

/-!
Remote calls over datagrams. One client makes its calls one after the other,
each on a socket of its own: it sends the request, sends it again when it has
waited long enough, and returns on the first reply to that socket. The server
serves every request it gets. Datagrams may be lost, delayed and reordered, so
copies of a call can arrive long after it has returned.

The two rules at the end are for a request whose success makes some property of
the server hold: nothing but a request that spoils the property, an old copy
included, can make a later answer wrong.
-/

namespace OsProjects.RetriedCalls

open Runs List

structure Datagram (Body : Type) where
  call : Nat
  body : Body

/-- `calls` counts the calls made so far; `waiting` is the request of the last
one while it has not returned. -/
structure Net (Server Request Reply : Type) where
  server : Server
  calls : Nat
  waiting : Option Request
  requests : List (Datagram Request)
  replies : List (Datagram Reply)

inductive Action (Request Choice : Type) where
  | call (request : Request)
  | resend
  | serve (index : Nat) (choice : Choice)
  | receive (index : Nat)
  | loseRequest (index : Nat)
  | loseReply (index : Nat)

variable {Server Request Reply Choice : Type} (handle : Server → Request → Choice → Server × Reply)

def idle (server : Server) : Net Server Request Reply := ⟨server, 0, none, [], []⟩

def act (net : Net Server Request Reply) : Action Request Choice → Net Server Request Reply
  | .call request =>
    { net with
      calls := net.calls + 1
      waiting := some request
      requests := ⟨net.calls + 1, request⟩ :: net.requests }
  | .resend =>
    match net.waiting with
    | some request => { net with requests := ⟨net.calls, request⟩ :: net.requests }
    | none => net
  | .serve index choice =>
    match net.requests[index]? with
    | some packet =>
      { net with
        server := (handle net.server packet.body choice).1
        requests := net.requests.eraseIdx index
        replies := ⟨packet.call, (handle net.server packet.body choice).2⟩ :: net.replies }
    | none => net
  | .receive index => { net with waiting := none, replies := net.replies.eraseIdx index }
  | .loseRequest index => { net with requests := net.requests.eraseIdx index }
  | .loseReply index => { net with replies := net.replies.eraseIdx index }

def Returns (net : Net Server Request Reply) (index : Nat) (request : Request) (reply : Reply) :
    Prop :=
  net.waiting = some request ∧ net.replies[index]? = some ⟨net.calls, reply⟩

def Possible (net : Net Server Request Reply) : Action Request Choice → Prop
  | .call _ => net.waiting = none
  | .resend => net.waiting ≠ none
  | .serve index _ => index < net.requests.length
  | .receive index => ∃ request reply, Returns net index request reply
  | .loseRequest index => index < net.requests.length
  | .loseReply index => index < net.replies.length

section Steps
variable {handle} {net : Net Server Request Reply} {action : Action Request Choice}

theorem act_calls : net.calls ≤ (act handle net action).calls := by
  cases action with
  | call request => exact Nat.le_succ _
  | resend => cases waiting : net.waiting <;> simp [act, waiting]
  | serve index choice => cases found : net.requests[index]? <;> simp [act, found]
  | receive index | loseRequest index | loseReply index => exact Nat.le_refl _

theorem act_waiting {request : Request} (under : (act handle net action).waiting = some request) :
    action = .call request ∨
      (act handle net action).calls = net.calls ∧ net.waiting = some request := by
  cases action with
  | call other => exact Or.inl (congrArg Action.call (Option.some.inj under))
  | receive index => cases under
  | resend => cases waiting : net.waiting <;> simp_all [act]
  | serve index choice => cases found : net.requests[index]? <;> simp_all [act]
  | loseRequest index | loseReply index => exact Or.inr ⟨rfl, under⟩

theorem act_requests {packet : Datagram Request}
    (member : packet ∈ (act handle net action).requests) : packet ∈ net.requests ∨
      packet.call = (act handle net action).calls ∧
        (act handle net action).waiting = some packet.body := by
  cases action with
  | call request =>
    rcases mem_cons.mp member with rfl | old
    · exact Or.inr ⟨rfl, rfl⟩
    · exact Or.inl old
  | resend =>
    cases under : net.waiting with
    | none => exact Or.inl (by simpa [act, under] using member)
    | some request =>
      simp only [act, under, mem_cons] at member ⊢
      rcases member with rfl | old
      · exact Or.inr ⟨rfl, rfl⟩
      · exact Or.inl old
  | serve index choice =>
    refine Or.inl ?_
    cases found : net.requests[index]? with
    | none => simpa [act, found] using member
    | some served => exact mem_of_mem_eraseIdx (by simpa [act, found] using member)
  | loseRequest index => exact Or.inl (mem_of_mem_eraseIdx member)
  | receive index | loseReply index => exact Or.inl member

variable (handle) in
/-- Only a request that is served changes the server and adds a reply. -/
theorem act_cases (possible : Possible net action) :
    (act handle net action).server = net.server ∧
        (∀ reply ∈ (act handle net action).replies, reply ∈ net.replies) ∨
      ∃ index choice packet, action = .serve index choice ∧ net.requests[index]? = some packet ∧
        (act handle net action).server = (handle net.server packet.body choice).1 ∧
        (act handle net action).replies =
          ⟨packet.call, (handle net.server packet.body choice).2⟩ :: net.replies := by
  cases action with
  | serve index choice =>
    have found := getElem?_eq_getElem possible
    exact Or.inr ⟨index, choice, _, rfl, found, by simp only [act, found], by simp only [act, found]⟩
  | resend =>
    refine Or.inl ?_
    cases waiting : net.waiting <;> simp [act, waiting]
  | call request | loseRequest index => exact Or.inl ⟨rfl, fun _ old => old⟩
  | receive index | loseReply index => exact Or.inl ⟨rfl, fun _ => mem_of_mem_eraseIdx⟩
end Steps

variable {net : Net Server Request Reply} {action : Action Request Choice}

section Invariants
variable (inv : Server → Prop) (fits : Server → Request → Prop)

/-- Requests in flight belong to calls that were made, fit the server, and copies
of the call under way carry its request. -/
structure Orderly (net : Net Server Request Reply) : Prop where
  server : inv net.server
  waiting : ∀ request, net.waiting = some request → fits net.server request
  requests : ∀ packet ∈ net.requests, packet.call ≤ net.calls ∧ fits net.server packet.body
  current : ∀ packet ∈ net.requests, packet.call = net.calls →
    ∀ request, net.waiting = some request → packet.body = request
  replies : ∀ packet ∈ net.replies, packet.call ≤ net.calls

def Fitting (net : Net Server Request Reply) : Action Request Choice → Prop
  | .call request => fits net.server request
  | _ => True

theorem orderly_idle {server : Server} (start : inv server) :
    Orderly inv fits (idle server : Net Server Request Reply) := by
  refine { server := start, waiting := ?_, requests := ?_, current := ?_, replies := ?_ }
  · intro request impossible
    cases impossible
  · intro packet impossible
    cases impossible
  · intro packet impossible
    cases impossible
  · intro packet impossible
    cases impossible

variable {inv fits} {handle}
  (keeps : ∀ server request choice, inv server → fits server request →
    inv (handle server request choice).1)
  (stays : ∀ server request choice other, inv server → fits server request → fits server other →
    fits (handle server request choice).1 other)
include keeps stays

theorem orderly_act  (orderly : Orderly inv fits net) (possible : Possible net action)
    (fitting : Fitting fits net action) : Orderly inv fits (act handle net action) := by
  have served := act_cases handle possible
  have stays' : ∀ other, fits net.server other → fits (act handle net action).server other := by
    intro other fit
    rcases served with ⟨server, _⟩ | ⟨index, choice, packet, _, found, server, _⟩
    · rwa [server]
    · rw [server]
      have member := mem_of_getElem? found
      exact stays _ _ choice _ orderly.server (orderly.requests packet member).2 fit
  have waiting : ∀ request, (act handle net action).waiting = some request →
      fits (act handle net action).server request := by
    intro request under
    rcases act_waiting under with rfl | ⟨_, old⟩
    · exact stays' _ fitting
    · exact stays' _ (orderly.waiting request old)
  refine { server := ?_, waiting, requests := ?_, current := ?_, replies := ?_ }
  · rcases served with ⟨server, _⟩ | ⟨index, choice, packet, _, found, server, _⟩
    · rw [server]
      exact orderly.server
    · rw [server]
      exact keeps _ _ choice orderly.server (orderly.requests packet (mem_of_getElem? found)).2
  · intro packet member
    rcases act_requests member with old | ⟨number, under⟩
    · have before := orderly.requests packet old
      exact ⟨Nat.le_trans before.1 act_calls, stays' _ before.2⟩
    · exact ⟨Nat.le_of_eq number, waiting _ under⟩
  · intro packet member number request under
    rcases act_requests member with old | ⟨_, own⟩
    · rcases act_waiting under with rfl | ⟨calls, before⟩
      · -- older copies have smaller numbers
        have bound := (orderly.requests packet old).1
        exact absurd number (Nat.ne_of_lt (Nat.lt_succ_of_le bound))
      · exact orderly.current packet old (number.trans calls) request before
    · exact Option.some.inj (own.symm.trans under)
  · intro reply member
    rcases served with ⟨_, old⟩ | ⟨index, choice, packet, _, found, _, replies⟩
    · exact Nat.le_trans (orderly.replies reply (old reply member)) act_calls
    · rw [replies] at member
      rcases mem_cons.mp member with rfl | old
      · exact Nat.le_trans (orderly.requests packet (mem_of_getElem? found)).1 act_calls
      · exact Nat.le_trans (orderly.replies reply old) act_calls

theorem orderly_run {actions : List (Action Request Choice)}
    (orderly : Orderly inv fits net) (all : Allowed (act handle)
      (fun net action => Possible net action ∧ Fitting fits net action) net actions) :
    Orderly inv fits (run (act handle) net actions) :=
  invariant (Orderly inv fits) orderly
    (fun _ _ before allowed => orderly_act keeps stays before allowed.1 allowed.2) all
end Invariants

section Acknowledged
variable (written : Request) (number : Nat) (spares : Request → Prop)

def Quiet (net : Net Server Request Reply) : Action Request Choice → Prop
  | .serve index _ => ∀ packet, net.requests[index]? = some packet →
      packet.call = number ∨ spares packet.body
  | _ => True

def Unserved (net : Net Server Request Reply) : Action Request Choice → Prop
  | .serve index _ => ∀ packet, net.requests[index]? = some packet → packet.call ≠ number
  | _ => True

variable {number spares} in
theorem quiet_mono {spares' : Request → Prop} (weaker : ∀ request, spares request → spares' request)
    (quiet : Quiet number spares net action) : Quiet number spares' net action := by
  cases action with
  | serve index choice => exact fun packet found => (quiet packet found).imp_right (weaker _)
  | _ => trivial

structure Copies (net : Net Server Request Reply) : Prop where
  bodies : ∀ packet ∈ net.requests, packet.call = number → packet.body = written
  own : net.calls = number → ∀ request, net.waiting = some request → request = written
  made : number ≤ net.calls

variable {written number spares} {handle} {inv : Server → Prop} {fits : Server → Request → Prop}

theorem copies_act (copies : Copies written number net) :
    Copies written number (act handle net action) := by
  have own : (act handle net action).calls = number →
      ∀ request, (act handle net action).waiting = some request → request = written := by
    intro same request under
    have made := copies.made
    rcases act_waiting under with rfl | ⟨calls, old⟩
    · simp only [act] at same
      omega
    · exact copies.own (calls.symm.trans same) request old
  refine ⟨?_, own, Nat.le_trans copies.made act_calls⟩
  intro packet member same
  rcases act_requests member with old | ⟨calls, under⟩
  · exact copies.bodies packet old same
  · exact own (calls.symm.trans same) _ under

theorem copies_call (orderly : Orderly inv fits net) :
    Copies written (net.calls + 1) (act handle net (.call written : Action Request Choice)) := by
  refine ⟨?_, ?_, Nat.le_refl _⟩
  · intro packet member same
    rcases mem_cons.mp member with rfl | old
    · rfl
    · have bound := (orderly.requests packet old).1
      omega
  · intro _ request under
    exact (Option.some.inj under).symm

section Holding
variable {ok : Reply → Prop} {holds : Server → Prop}
  (again : ∀ server choice, inv server → fits server written → holds server →
    holds (handle server written choice).1)
  (lasts : ∀ server request choice, inv server → fits server request → spares request →
    holds server → holds (handle server request choice).1)
include again lasts

theorem holds_act  (orderly : Orderly inv fits net) (copies : Copies written number net)
    (possible : Possible net action) (quiet : Quiet number spares net action)
    (before : holds net.server) : holds (act handle net action).server := by
  rcases act_cases handle possible with
    ⟨server, _⟩ | ⟨index, choice, packet, rfl, found, server, _⟩
  · rwa [server]
  · have member := mem_of_getElem? found
    have fit := (orderly.requests packet member).2
    rw [server]
    rcases quiet packet found with own | spared
    · rw [copies.bodies packet member own] at fit ⊢
      exact again _ choice orderly.server fit before
    · exact lasts _ _ choice orderly.server fit spared before

def Acked (number : Nat) (ok : Reply → Prop) (holds : Server → Prop)
    (net : Net Server Request Reply) : Prop :=
  ∀ packet ∈ net.replies, packet.call = number → ok packet.body → holds net.server

theorem acked_act (makes : ∀ server choice, inv server → fits server written →
      ok (handle server written choice).2 → holds (handle server written choice).1)
    (orderly : Orderly inv fits net) (copies : Copies written number net)
    (acked : Acked number ok holds net) (possible : Possible net action)
    (quiet : Quiet number spares net action) : Acked number ok holds (act handle net action) := by
  intro packet member same good
  have step := holds_act again lasts orderly copies possible quiet
  rcases act_cases handle possible with
    ⟨_, old⟩ | ⟨index, choice, served, rfl, found, server, replies⟩
  · exact step (acked packet (old packet member) same good)
  · rw [replies] at member
    rcases mem_cons.mp member with rfl | old
    · -- the reply was made just now
      have there := mem_of_getElem? found
      have fit := (orderly.requests served there).2
      simp only at same good
      rw [copies.bodies served there same] at fit good server
      rw [server]
      exact makes _ choice orderly.server fit good
    · exact step (acked packet old same good)

variable (keeps : ∀ server request choice, inv server → fits server request →
    inv (handle server request choice).1)
  (stays : ∀ server request choice other, inv server → fits server request → fits server other →
    fits (handle server request choice).1 other)
include keeps stays

omit again lasts keeps stays in
theorem unserved_act
    (silent : ∀ packet ∈ net.replies, packet.call ≠ number) (possible : Possible net action)
    (unserved : Unserved number net action) :
    ∀ packet ∈ (act handle net action).replies, packet.call ≠ number := by
  intro packet member
  rcases act_cases handle possible with
    ⟨_, old⟩ | ⟨index, choice, served, rfl, found, _, replies⟩
  · exact silent packet (old packet member)
  · rw [replies] at member
    rcases mem_cons.mp member with rfl | old
    · exact unserved served found
    · exact silent packet old

omit again lasts in
/-- Until a copy of the call is served no reply to it is on its way. -/
theorem unserved_run (orderly : Orderly inv fits net)
    (free : net.waiting = none) (fit : fits net.server written)
    {early : List (Action Request Choice)}
    (all : Allowed (act handle) (fun net' action => (Possible net' action ∧
      Fitting fits net' action) ∧ Unserved (net.calls + 1) net' action)
      (act handle net (.call written)) early) :
    Orderly inv fits (run (act handle) (act handle net (.call written)) early) ∧
      Copies written (net.calls + 1) (run (act handle) (act handle net (.call written)) early) ∧
      ∀ packet ∈ (run (act handle) (act handle net (.call written)) early).replies,
        packet.call ≠ net.calls + 1 := by
  have first : Orderly inv fits (act handle net (.call written : Action Request Choice)) :=
    orderly_act keeps stays orderly (show Possible net (.call written) from free) fit
  have start : ∀ packet ∈ (act handle net (.call written : Action Request Choice)).replies,
      packet.call ≠ net.calls + 1 := by
    intro packet member
    have bound := orderly.replies packet member
    omega
  exact invariant (fun net' => Orderly inv fits net' ∧ Copies written (net.calls + 1) net' ∧
      ∀ packet ∈ net'.replies, packet.call ≠ net.calls + 1)
    ⟨first, copies_call orderly, start⟩
    (fun net' action before allowed =>
      ⟨orderly_act keeps stays before.1 allowed.1.1 allowed.1.2, copies_act before.2.1,
        unserved_act before.2.2 allowed.1.1 allowed.2⟩) all

variable (ok) in
/-- The call has returned with a good reply: from its first serving on only what
spares it was served, so the property holds. -/
theorem acknowledged (makes : ∀ server choice, inv server → fits server written →
      ok (handle server written choice).2 → holds (handle server written choice).1)
    (orderly : Orderly inv fits net)
    (copies : Copies written number net) (silent : ∀ packet ∈ net.replies, packet.call ≠ number)
    {middle : List (Action Request Choice)}
    (all : Allowed (act handle) (fun net action => (Possible net action ∧
      Fitting fits net action) ∧ Quiet number spares net action) net middle)
    {index : Nat} {request : Request} {reply : Reply}
    (returns : Returns (run (act handle) net middle) index request reply)
    (same : (run (act handle) net middle).calls = number) (good : ok reply) :
    Orderly inv fits (run (act handle) net middle) ∧
      Copies written number (run (act handle) net middle) ∧
      holds (run (act handle) net middle).server := by
  have start : Acked number ok holds net := fun packet member own =>
    absurd own (silent packet member)
  obtain ⟨orderly', copies', acked⟩ := invariant
    (fun net => Orderly inv fits net ∧ Copies written number net ∧ Acked number ok holds net)
    ⟨orderly, copies, start⟩
    (fun net action before allowed =>
      ⟨orderly_act keeps stays before.1 allowed.1.1 allowed.1.2, copies_act before.2.1,
        acked_act again lasts makes before.1 before.2.1 before.2.2 allowed.1.1 allowed.2⟩) all
  exact ⟨orderly', copies', acked _ (mem_of_getElem? returns.2) same good⟩

omit again lasts keeps stays in
/-- Replies to the call under way tell the truth, if that is what is asked. -/
theorem answers_act {asked : Request} {truth : Reply → Prop}
    (answers : ∀ server choice, inv server → fits server asked → holds server →
      truth (handle server asked choice).2)
    (orderly : Orderly inv fits net) (before : holds net.server) (possible : Possible net action)
    (told : ∀ packet ∈ net.replies, packet.call = net.calls → net.waiting = some asked →
      truth packet.body) :
    ∀ packet ∈ (act handle net action).replies, packet.call = (act handle net action).calls →
      (act handle net action).waiting = some asked → truth packet.body := by
  intro packet member same under
  rcases act_cases handle possible with
    ⟨_, old⟩ | ⟨index, choice, served, rfl, found, _, replies⟩
  · rcases act_waiting under with rfl | ⟨calls, waiting⟩
    · -- a reply to the new socket would be older than its call
      have bound := orderly.replies packet (old packet member)
      simp only [act] at same
      omega
    · exact told packet (old packet member) (same.trans calls) waiting
  · rcases act_waiting under with impossible | ⟨calls, waiting⟩
    · cases impossible
    rw [replies] at member
    rcases mem_cons.mp member with rfl | old
    · have there := mem_of_getElem? found
      have fit := (orderly.requests served there).2
      rw [orderly.current served there (same.trans calls) asked waiting] at fit ⊢
      exact answers _ choice orderly.server fit before
    · exact told packet old (same.trans calls) waiting

/-- From then on the property holds, and whoever asks for it is told so. -/
theorem answered (asked : Request) (truth : Reply → Prop)
    (answers : ∀ server choice, inv server → fits server asked → holds server →
      truth (handle server asked choice).2)
    (orderly : Orderly inv fits net)
    (copies : Copies written number net) (before : holds net.server) (free : net.waiting = none)
    {later : List (Action Request Choice)}
    (all : Allowed (act handle) (fun net action => (Possible net action ∧
      Fitting fits net action) ∧ Quiet number spares net action) net later) :
    Orderly inv fits (run (act handle) net later) ∧
      Copies written number (run (act handle) net later) ∧
      holds (run (act handle) net later).server ∧
      ∀ index reply, Returns (run (act handle) net later) index asked reply → truth reply := by
  obtain ⟨orderly', copies', after, told⟩ := invariant
    (fun net => Orderly inv fits net ∧ Copies written number net ∧ holds net.server ∧
      ∀ packet ∈ net.replies, packet.call = net.calls → net.waiting = some asked →
        truth packet.body)
    ⟨orderly, copies, before, fun _ _ _ under => by rw [free] at under; cases under⟩
    (fun net action state allowed =>
      ⟨orderly_act keeps stays state.1 allowed.1.1 allowed.1.2, copies_act state.2.1,
        holds_act again lasts state.1 state.2.1 allowed.1.1 allowed.2 state.2.2.1,
        answers_act answers state.1 state.2.2.1 allowed.1.1 state.2.2.2⟩) all
  refine ⟨orderly', copies', after, ?_⟩
  intro index reply returns
  exact told _ (mem_of_getElem? returns.2) rfl returns.1
end Holding
end Acknowledged

section Schedules
variable {handle} (fits : Server → Request → Prop) (server : Server) (calls : Nat)
  (request next asked : Request) (choice : Choice)

def smooth : List (Action Request Choice) := [.call request, .serve 0 choice, .receive 0]

theorem smooth_call (fit : fits server request) :
    Allowed (act handle) (fun net action => Possible net action ∧ Fitting fits net action)
        ⟨server, calls, none, [], []⟩ (smooth request choice) ∧
      run (act handle) ⟨server, calls, none, [], []⟩ (smooth request choice) =
        ⟨(handle server request choice).1, calls + 1, none, [], []⟩ :=
  ⟨⟨⟨rfl, fit⟩, ⟨Nat.one_pos, trivial⟩, ⟨⟨_, _, rfl, rfl⟩, trivial⟩, trivial⟩, rfl⟩

def twice : List (Action Request Choice) :=
  [.call request, .resend, .serve 0 choice, .receive 0]

theorem twice_call (fit : fits server request) :
    Allowed (act handle) (fun net action => Possible net action ∧ Fitting fits net action)
        ⟨server, calls, none, [], []⟩ (twice request choice) ∧
      run (act handle) ⟨server, calls, none, [], []⟩ (twice request choice) =
        ⟨(handle server request choice).1, calls + 1, none, [⟨calls + 1, request⟩], []⟩ :=
  ⟨⟨⟨rfl, fit⟩, ⟨Option.some_ne_none _, trivial⟩, ⟨Nat.two_pos, trivial⟩,
    ⟨⟨_, _, rfl, rfl⟩, trivial⟩, trivial⟩, rfl⟩

def delayed : List (Action Request Choice) := [.resend, .serve 2 choice]

theorem delayed_call :
    Allowed (act handle) (fun net action => (Possible net action ∧ Fitting fits net action) ∧
        Unserved (calls + 1) net action)
        (act handle ⟨server, calls, none, [⟨calls, request⟩], []⟩ (.call next)) (delayed choice) ∧
      run (act handle) (act handle ⟨server, calls, none, [⟨calls, request⟩], []⟩ (.call next))
          (delayed choice) =
        ⟨(handle server request choice).1, calls + 1, some next,
          [⟨calls + 1, next⟩, ⟨calls + 1, next⟩], [⟨calls, (handle server request choice).2⟩]⟩ := by
  refine ⟨⟨⟨⟨Option.some_ne_none _, trivial⟩, trivial⟩,
    ⟨⟨show 2 < 3 by decide, trivial⟩, ?_⟩, trivial⟩, rfl⟩
  intro packet found
  cases found
  exact Nat.ne_of_lt (Nat.lt_succ_self calls)

theorem serve_own (replies : List (Datagram Reply)) :
    Allowed (act handle) (fun net action => (Possible net action ∧ Fitting fits net action) ∧
        Quiet calls (fun _ => False) net action)
        ⟨server, calls, some request, [⟨calls, request⟩, ⟨calls, request⟩], replies⟩
        [.serve 0 choice] := by
  refine ⟨⟨⟨Nat.two_pos, trivial⟩, ?_⟩, trivial⟩
  intro packet found
  cases found
  exact Or.inl rfl

theorem act_receive (waiting : Option Request) (requests : List (Datagram Request))
    (reply : Datagram Reply) (replies : List (Datagram Reply)) :
    act handle ⟨server, calls, waiting, requests, reply :: replies⟩
        (.receive 0 : Action Request Choice) =
      ⟨server, calls, none, requests, replies⟩ := rfl

def leftover : List (Action Request Choice) :=
  [.call request, .resend, .serve 0 choice, .receive 0, .call next, .serve 0 choice]

theorem leftover_call (fit : fits server request) (fit' : fits (handle server request choice).1 next) :
    Allowed (act handle) (fun net action => Possible net action ∧ Fitting fits net action)
        ⟨server, calls, none, [], []⟩ (leftover request next choice) ∧
      run (act handle) ⟨server, calls, none, [], []⟩ (leftover request next choice) =
        ⟨(handle (handle server request choice).1 next choice).1, calls + 2, some next,
          [⟨calls + 1, request⟩],
          [⟨calls + 2, (handle (handle server request choice).1 next choice).2⟩]⟩ :=
  ⟨⟨⟨rfl, fit⟩, ⟨Option.some_ne_none _, trivial⟩, ⟨Nat.two_pos, trivial⟩,
    ⟨⟨_, _, rfl, rfl⟩, trivial⟩, ⟨rfl, fit'⟩, ⟨Nat.two_pos, trivial⟩, trivial⟩, rfl⟩

def overtaken : List (Action Request Choice) :=
  [.serve 0 choice, .call asked, .serve 0 choice]

theorem overtaken_call (number : Nat) (replies : List (Datagram Reply))
    (fit : fits (handle server request choice).1 asked) :
    Allowed (act handle) (fun net action => (Possible net action ∧ Fitting fits net action) ∧
        Quiet number (fun other => other = asked) net action)
        ⟨server, calls, none, [⟨number, request⟩], replies⟩ (overtaken asked choice) ∧
      run (act handle) ⟨server, calls, none, [⟨number, request⟩], replies⟩
          (overtaken asked choice) =
        ⟨(handle (handle server request choice).1 asked choice).1, calls + 1, some asked, [],
          ⟨calls + 1, (handle (handle server request choice).1 asked choice).2⟩ ::
            ⟨number, (handle server request choice).2⟩ :: replies⟩ := by
  refine ⟨⟨⟨⟨Nat.one_pos, trivial⟩, ?_⟩, ⟨⟨rfl, fit⟩, trivial⟩, ⟨⟨Nat.one_pos, trivial⟩, ?_⟩,
    trivial⟩, rfl⟩
  · intro packet found
    cases found
    exact Or.inl rfl
  · intro packet found
    cases found
    exact Or.inr rfl
end Schedules

end OsProjects.RetriedCalls
