import CoreOS.Lib.Machine
import CoreOS.Sockets.Transfer
import Mathlib.Data.Finset.Basic
import Mathlib.Logic.Function.Basic

/-!
# A server and its clients

`ex5/sockets.cpp`: `run_server` beside any number of processes that run `run_client`, call by call.
Between any two calls of one party the others may make theirs, and every call may fail.

What is assumed of the kernel: no more than `MAX_CLIENTS` connections wait to be accepted, as asked
for in `listen`, and a further `connect` waits, although a kernel may let some more in; `accept`
returns a descriptor that was not open; `read` returns 0 when everything has been read and the
client has closed its socket, and waits until there is something otherwise.

* `System`: where the parties are, what is under way between them, and the sockets that the server
  has open. `serverStep`, `clientStep`, `service`.
* `request`: the buffer that a stream ends up in; `handleRequest_eq_request`.
* `At`: what there is when the server is at a point, and `Serving`, the invariant;
  `serving_of_reachable`.
* `server_safe`: **requests are executed in the order of the connections, each at most once and with
  the buffer that what was sent makes, one conversation is open at a time, and nothing stays open
  when the server exits.**
-/

namespace CoreOS.Sockets

open CoreOS.Lib Function

/-- `MAX_CLIENTS`. -/
def maxClients : ℕ := 5

/-! ## The machine -/

/-- Where a client is, by its next call. -/
inductive ClientPoint
  /-- At `connect`. -/
  | connect
  /-- At `write`. -/
  | write
  /-- At `close`. -/
  | close
  /-- It has exited, and its socket is closed. -/
  | exited
  deriving DecidableEq

/-- The message that the server exits with. -/
inductive ServerError
  | selectSocket
  | acceptSocket
  | readCommand
  deriving DecidableEq

/-- Where the server is. -/
inductive ServerPoint
  /-- At `select`. -/
  | select
  /-- At `FD_ISSET`, with what `select` has left in `readfds`. -/
  | test (readfds : Finset ℕ)
  /-- At `accept`. -/
  | accept
  /-- In the loop of `read_from_socket` for `fd`. -/
  | read (fd bytesRead : ℕ) (buffer : List UInt8)
  /-- At `system`. -/
  | system (fd : ℕ) (buffer : List UInt8)
  /-- `handle_request` has returned `SUCCESS`. -/
  | release (fd : ℕ)
  /-- After `error_handler`. -/
  | exited (error : ServerError)
  deriving DecidableEq

/-- A server and `n` clients. `connects`, `accepted`, `sent`, `executed` and `badCloses` are
histories. -/
structure System (n : ℕ) where
  /-- Where the clients are. -/
  client : Fin n → ClientPoint
  /-- The bytes of each client that the server has not read. -/
  unread : Fin n → List UInt8
  /-- The connections that wait to be accepted. -/
  backlog : List (Fin n)
  /-- Where the server is. -/
  server : ServerPoint
  /-- The open sockets of the server; the one that is nobody's is the welcome socket. -/
  sockets : List (ℕ × Option (Fin n))
  /-- `clients`. -/
  clients : Finset ℕ
  /-- `connected`. -/
  connected : List ℕ
  /-- Who has connected, in order. -/
  connects : List (Fin n)
  /-- Who has been accepted, in order. -/
  accepted : List (Fin n)
  /-- What each client has written. -/
  sent : Fin n → List UInt8
  /-- The buffers that `system` has been called with. -/
  executed : List (List UInt8)
  /-- How often `close` was called for a socket that was not open. -/
  badCloses : ℕ

namespace System

variable {n : ℕ}

/-- `close` of a socket of the server. -/
def close (s : System n) (fd : ℕ) : System n :=
  if fd ∈ s.sockets.map Prod.fst then { s with sockets := s.sockets.filter fun e => e.1 ≠ fd }
  else { s with badCloses := s.badCloses + 1 }

/-- Source: `sockets.cpp`, `close_files` -/
def closeFiles (s : System n) (mainSocket : ℕ) : System n :=
  (s.connected.foldl close s).close mainSocket

/-- The client at the other end of a socket. -/
def peer (s : System n) (fd : ℕ) : Option (Fin n) := (s.sockets.lookup fd).join

/-- A call that would wait for the socket would not have to: there is a connection to accept, or
there are bytes or EOF to read. -/
def Ready (s : System n) (fd : ℕ) : Prop :=
  match s.sockets.lookup fd with
  | none => False
  | some none => s.backlog ≠ []
  | some (some i) => s.unread i ≠ [] ∨ s.client i = .exited

instance (s : System n) (fd : ℕ) : Decidable (s.Ready fd) :=
  match h : s.sockets.lookup fd with
  | none => .isFalse (by simp [Ready, h])
  | some none => decidable_of_iff (s.backlog ≠ []) (by simp [Ready, h])
  | some (some i) =>
      decidable_of_iff (s.unread i ≠ [] ∨ s.client i = .exited) (by simp [Ready, h])

end System

variable {n : ℕ}

/-- The next step of the server; `ret` is what its call returns, none for `FAILURE`. It has none
while the call waits.
Source: `sockets.cpp`, `run_server`, `connect_to_client`, `handle_request`, `read_from_socket` -/
def serverStep (welcome : ℕ) (ret : Option ℕ) (s : System n) : Option (System n) :=
  match s.server with
  | .select =>
      match ret with
      | none => some { s.closeFiles welcome with server := .exited .selectSocket }
      | some _ =>
          -- `readfds = clients`; `select` looks at the first `ADD_ONE(MAX_CLIENTS)` descriptors
          let readfds := s.clients.filter fun fd => fd < maxClients + 1 ∧ s.Ready fd
          if readfds = ∅ then none else some { s with server := .test readfds }
  | .test readfds => some { s with server := if welcome ∈ readfds then .accept else .select }
  | .accept =>
      match ret, s.backlog with
      | none, _ => some { s.closeFiles welcome with server := .exited .acceptSocket }
      | some _, [] => none
      | some fd, i :: backlog =>
          if fd ∈ s.sockets.map Prod.fst then none else some { s with
            backlog := backlog
            sockets := s.sockets ++ [(fd, some i)]
            clients := insert fd s.clients
            connected := s.connected ++ [fd]
            accepted := s.accepted ++ [i]
            server := .read fd 0 (List.replicate maxBuffer 0) }
  | .read fd bytesRead buffer =>
      if bytesRead < maxBuffer then
        match ret, s.peer fd with
        | none, _ => some { s.closeFiles welcome with server := .exited .readCommand }
        | some _, none => none
        | some 0, some i =>
            -- EOF
            if s.unread i = [] ∧ s.client i = .exited then
              some { s with server := .system fd buffer }
            else none
        | some (k + 1), some i =>
            if k + 1 ≤ min (maxBuffer - bytesRead) (s.unread i).length then some { s with
              unread := update s.unread i ((s.unread i).drop (k + 1))
              server := .read fd (bytesRead + (k + 1))
                (overwrite buffer bytesRead ((s.unread i).take (k + 1))) }
            else none
      else some { s with server := .system fd buffer }
  | .system fd buffer => some { s with
      executed := s.executed ++ [buffer]
      server := .release fd }
  | .release fd =>
      some ({ s with
        clients := s.clients.erase fd
        connected := s.connected.filter (· ≠ fd)
        server := .select }.close fd)
  | .exited _ => none

/-- The next call of the client `i`, which is given `command`, and what it returns.
Source: `sockets.cpp`, `get_socket_client`, `run_client` -/
def clientStep (welcome : ℕ) (command : List UInt8) (i : Fin n) (ret : Option ℕ) (s : System n) :
    Option (System n) :=
  match s.client i with
  | .connect =>
      match ret with
      | none => some { s with client := update s.client i .exited }
      | some _ =>
          -- the server listens, with room for `MAX_CLIENTS`
          if s.sockets.lookup welcome = some none ∧ s.backlog.length < maxClients then some { s with
            client := update s.client i .write
            backlog := s.backlog ++ [i]
            connects := s.connects ++ [i] }
          else none
  | .write =>
      match ret with
      | none => some { s with client := update s.client i .close }
      | some count =>
          if count ≤ command.length ∧ (0 < command.length → 0 < count) then some { s with
            client := update s.client i .close
            unread := update s.unread i (s.unread i ++ command.take count)
            sent := update s.sent i (s.sent i ++ command.take count) }
          else none
  | .close => some { s with client := update s.client i .exited }
  | .exited => none

/-- Who makes the next step, and what its call returns. -/
inductive Label (n : ℕ)
  | server (ret : Option ℕ)
  | client (i : Fin n) (ret : Option ℕ)
  deriving DecidableEq

/-- What the call of a step returns. -/
def Label.ret : Label n → Option ℕ
  | server ret | client _ ret => ret

/-- The welcome socket is open, and nobody has called yet.
Source: `sockets.cpp`, `get_socket_server`, `run_server` -/
def freshSystem (n welcome : ℕ) : System n where
  client _ := .connect
  unread _ := []
  backlog := []
  server := .select
  sockets := [(welcome, none)]
  clients := {welcome}
  connected := []
  connects := []
  accepted := []
  sent _ := []
  executed := []
  badCloses := 0

/-- A server with the given welcome socket, and `n` clients with their commands. -/
def service (welcome : ℕ) (command : Fin n → List UInt8) : Machine (System n) (Label n) where
  init s := s = freshSystem n welcome
  step
    | .server ret => serverStep welcome ret
    | .client i ret => clientStep welcome (command i) i ret

/-! ## Steps -/

/-- **What a step of the server is.** -/
inductive ServerCase (welcome : ℕ) (s : System n) : Option ℕ → System n → Prop
  | selectFails (hat : s.server = .select) :
      ServerCase welcome s none { s.closeFiles welcome with server := .exited .selectSocket }
  | select {k : ℕ} (hat : s.server = .select)
      (hready : s.clients.filter (fun fd => fd < maxClients + 1 ∧ s.Ready fd) ≠ ∅) :
      ServerCase welcome s (some k) { s with
        server := .test (s.clients.filter fun fd => fd < maxClients + 1 ∧ s.Ready fd) }
  | test {ret : Option ℕ} {readfds : Finset ℕ} (hat : s.server = .test readfds) :
      ServerCase welcome s ret
        { s with server := if welcome ∈ readfds then .accept else .select }
  | acceptFails (hat : s.server = .accept) :
      ServerCase welcome s none { s.closeFiles welcome with server := .exited .acceptSocket }
  | accept {fd : ℕ} {i : Fin n} {backlog : List (Fin n)} (hat : s.server = .accept)
      (hcons : s.backlog = i :: backlog) (hfree : fd ∉ s.sockets.map Prod.fst) :
      ServerCase welcome s (some fd) { s with
        backlog := backlog
        sockets := s.sockets ++ [(fd, some i)]
        clients := insert fd s.clients
        connected := s.connected ++ [fd]
        accepted := s.accepted ++ [i]
        server := .read fd 0 (List.replicate maxBuffer 0) }
  | readFails {fd bytesRead : ℕ} {buffer : List UInt8} (hat : s.server = .read fd bytesRead buffer) :
      ServerCase welcome s none { s.closeFiles welcome with server := .exited .readCommand }
  | eof {fd bytesRead : ℕ} {buffer : List UInt8} {i : Fin n}
      (hat : s.server = .read fd bytesRead buffer) (hpeer : s.peer fd = some i)
      (hunread : s.unread i = []) (hclosed : s.client i = .exited) :
      ServerCase welcome s (some 0) { s with server := .system fd buffer }
  | chunk {fd bytesRead k : ℕ} {buffer : List UInt8} {i : Fin n}
      (hat : s.server = .read fd bytesRead buffer) (hpeer : s.peer fd = some i)
      (hcount : k + 1 ≤ min (maxBuffer - bytesRead) (s.unread i).length) :
      ServerCase welcome s (some (k + 1)) { s with
        unread := update s.unread i ((s.unread i).drop (k + 1))
        server := .read fd (bytesRead + (k + 1))
          (overwrite buffer bytesRead ((s.unread i).take (k + 1))) }
  | full {ret : Option ℕ} {fd bytesRead : ℕ} {buffer : List UInt8}
      (hat : s.server = .read fd bytesRead buffer) (hfull : ¬ bytesRead < maxBuffer) :
      ServerCase welcome s ret { s with server := .system fd buffer }
  | system {ret : Option ℕ} {fd : ℕ} {buffer : List UInt8} (hat : s.server = .system fd buffer) :
      ServerCase welcome s ret { s with
        executed := s.executed ++ [buffer]
        server := .release fd }
  | release {ret : Option ℕ} {fd : ℕ} (hat : s.server = .release fd) :
      ServerCase welcome s ret ({ s with
        clients := s.clients.erase fd
        connected := s.connected.filter (· ≠ fd)
        server := .select }.close fd)

theorem serverStep_cases {welcome : ℕ} {ret : Option ℕ} {s s' : System n}
    (hstep : serverStep welcome ret s = some s') : ServerCase welcome s ret s' := by
  unfold serverStep at hstep
  split at hstep
  case h_1 hat =>
    split at hstep
    · cases hstep
      exact .selectFails hat
    · dsimp only at hstep
      split_ifs at hstep with hready
      cases hstep
      exact .select hat hready
  case h_2 hat =>
    cases hstep
    exact .test hat
  case h_3 hat =>
    split at hstep
    case h_1 =>
      cases hstep
      exact .acceptFails hat
    case h_2 => cases hstep
    case h_3 hcons =>
      split_ifs at hstep with hfree
      cases hstep
      exact .accept hat hcons hfree
  case h_4 hat =>
    split_ifs at hstep with hmore
    · split at hstep
      case h_1 =>
        cases hstep
        exact .readFails hat
      case h_2 => cases hstep
      case h_3 hpeer =>
        split_ifs at hstep with heof
        cases hstep
        exact .eof hat hpeer heof.1 heof.2
      case h_4 hpeer =>
        split_ifs at hstep with hcount
        cases hstep
        exact .chunk hat hpeer hcount
    · cases hstep
      exact .full hat hmore
  case h_5 hat =>
    cases hstep
    exact .system hat
  case h_6 hat =>
    cases hstep
    exact .release hat
  case h_7 => cases hstep

/-- **What a step of a client is.** -/
inductive ClientCase (welcome : ℕ) (command : List UInt8) (i : Fin n) (s : System n) :
    Option ℕ → System n → Prop
  | connectFails (hat : s.client i = .connect) :
      ClientCase welcome command i s none { s with client := update s.client i .exited }
  | connect {k : ℕ} (hat : s.client i = .connect) (hlisten : s.sockets.lookup welcome = some none)
      (hroom : s.backlog.length < maxClients) :
      ClientCase welcome command i s (some k) { s with
        client := update s.client i .write
        backlog := s.backlog ++ [i]
        connects := s.connects ++ [i] }
  | writeFails (hat : s.client i = .write) :
      ClientCase welcome command i s none { s with client := update s.client i .close }
  | write (hat : s.client i = .write) (written : Accepted command.length) :
      ClientCase welcome command i s (some written.count) { s with
        client := update s.client i .close
        unread := update s.unread i (s.unread i ++ command.take written.count)
        sent := update s.sent i (s.sent i ++ command.take written.count) }
  | close {ret : Option ℕ} (hat : s.client i = .close) :
      ClientCase welcome command i s ret { s with client := update s.client i .exited }

theorem clientStep_cases {welcome : ℕ} {command : List UInt8} {i : Fin n} {ret : Option ℕ}
    {s s' : System n} (hstep : clientStep welcome command i ret s = some s') :
    ClientCase welcome command i s ret s' := by
  unfold clientStep at hstep
  split at hstep
  case h_1 hat =>
    split at hstep
    · cases hstep
      exact .connectFails hat
    · split_ifs at hstep with hroom
      cases hstep
      exact .connect hat hroom.1 hroom.2
  case h_2 hat =>
    split at hstep
    · cases hstep
      exact .writeFails hat
    · split_ifs at hstep with hcount
      cases hstep
      exact .write hat ⟨_, hcount.1, hcount.2⟩
  case h_3 hat =>
    cases hstep
    exact .close hat
  case h_4 => cases hstep

/-! ## The invariant -/

/-- What `system` is called with for what a client has sent. -/
def request (stream : List UInt8) : List UInt8 :=
  stream.take maxBuffer ++ List.replicate (maxBuffer - stream.length) 0

theorem handleRequest_eq_request {d : Delivery} (hd : d.Sound) (stream : List UInt8) :
    handleRequest d stream = some (request stream) := handleRequest_eq hd

/-- It does not depend on the pieces. -/
theorem overwrite_request {received xs : List UInt8} (hle : received.length + xs.length ≤ maxBuffer) :
    overwrite (request received) received.length xs = request (received ++ xs) := by
  have hrequest : ∀ ys : List UInt8, ys.length ≤ maxBuffer →
      request ys = overwrite (List.replicate maxBuffer 0) 0 ys := by
    intro ys hys
    rw [overwrite_zero, request, List.take_of_length_le hys, List.drop_replicate]
  rw [hrequest received (by omega), hrequest _ (by rw [List.length_append]; exact hle)]
  have hjoin : overwrite (overwrite (List.replicate maxBuffer 0) 0 received)
      (0 + received.length) xs = overwrite (List.replicate maxBuffer 0) 0 (received ++ xs) :=
    overwrite_overwrite (Nat.zero_le _)
  rwa [Nat.zero_add] at hjoin

/-- Past its `write`. -/
def ClientPoint.written : ClientPoint → Bool
  | close | exited => true
  | connect | write => false

/-- The requests of the clients in the list have been executed, and the clients send nothing
more. -/
structure Handled (s : System n) (handled : List (Fin n)) : Prop where
  executed : s.executed = handled.map fun i => request (s.sent i)
  written : ∀ i ∈ handled, (s.client i).written = true

/-- The server is between two conversations. -/
structure Idle (welcome : ℕ) (s : System n) : Prop where
  sockets : s.sockets = [(welcome, none)]
  clients : s.clients = {welcome}
  connected : s.connected = []
  handled : Handled s s.accepted

/-- The server is in the conversation `fd` with the client `i`, after those with `others`. -/
structure Conversing (welcome : ℕ) (s : System n) (fd : ℕ) (i : Fin n) (others : List (Fin n)) :
    Prop where
  ne : fd ≠ welcome
  sockets : s.sockets = [(welcome, none), (fd, some i)]
  clients : s.clients = {fd, welcome}
  connected : s.connected = [fd]
  accepted : s.accepted = others ++ [i]

/-- What there is when the server is at a point. -/
def At (welcome : ℕ) (s : System n) : ServerPoint → Prop
  | .select => Idle welcome s
  | .test readfds => Idle welcome s ∧ readfds = {welcome} ∧ welcome ≤ maxClients ∧ s.backlog ≠ []
  | .accept => Idle welcome s ∧ welcome ≤ maxClients ∧ s.backlog ≠ []
  | .read fd bytesRead buffer => ∃ i others received, Conversing welcome s fd i others ∧
      Handled s others ∧ s.sent i = received ++ s.unread i ∧ received.length = bytesRead ∧
      bytesRead ≤ maxBuffer ∧ buffer = request received ∧ welcome ≤ maxClients
  | .system fd buffer => ∃ i others, Conversing welcome s fd i others ∧ Handled s others ∧
      (s.client i).written = true ∧ buffer = request (s.sent i) ∧ welcome ≤ maxClients
  | .release fd => ∃ i others, Conversing welcome s fd i others ∧ Handled s (others ++ [i]) ∧
      welcome ≤ maxClients
  | .exited _ => s.sockets = [] ∧ ∃ handled, handled <+: s.accepted ∧ Handled s handled

/-- What is known of every state. -/
structure Serving (welcome : ℕ) (command : Fin n → List UInt8) (s : System n) : Prop where
  at_server : At welcome s s.server
  queue : s.connects = s.accepted ++ s.backlog
  nodup : s.connects.Nodup
  backlog_le : s.backlog.length ≤ maxClients
  waiting : ∀ i ∈ s.backlog, s.unread i = s.sent i
  fresh : ∀ i, s.client i = .connect → i ∉ s.connects
  joined : ∀ i, s.client i = .write → i ∈ s.connects
  quiet : ∀ i, (s.client i).written = false → s.sent i = [] ∧ s.unread i = []
  runs : ∀ i, ∃ written,
    s.sent i = (runClient (command i) (command i).length written).getD []
  badCloses : s.badCloses = 0

/-! ### The sockets -/

section sockets

variable {welcome fd : ℕ} {s : System n} {i : Fin n} {others : List (Fin n)}

theorem Idle.closeFiles (h : Idle welcome s) : s.closeFiles welcome = { s with sockets := [] } := by
  simp [System.closeFiles, System.close, h.connected, h.sockets]

theorem Idle.ready_iff (h : Idle welcome s) : s.Ready welcome ↔ s.backlog ≠ [] := by
  simp [System.Ready, h.sockets]

/-- What `select` leaves between two conversations. -/
theorem Idle.readfds (h : Idle welcome s)
    (hne : s.clients.filter (fun fd => fd < maxClients + 1 ∧ s.Ready fd) ≠ ∅) :
    s.clients.filter (fun fd => fd < maxClients + 1 ∧ s.Ready fd) = {welcome} ∧
      welcome ≤ maxClients ∧ s.backlog ≠ [] := by
  obtain ⟨fd, hfd⟩ := Finset.nonempty_iff_ne_empty.mpr hne
  rw [Finset.mem_filter, h.clients, Finset.mem_singleton] at hfd
  obtain ⟨rfl, hle, hready⟩ := hfd
  refine ⟨?_, Nat.lt_succ_iff.mp hle, h.ready_iff.mp hready⟩
  rw [h.clients, Finset.filter_singleton, if_pos ⟨hle, hready⟩]

theorem Conversing.peer (h : Conversing welcome s fd i others) : s.peer fd = some i := by
  have hne : (fd == welcome) = false := beq_eq_false_iff_ne.mpr h.ne
  simp [System.peer, h.sockets, List.lookup, hne]

theorem Conversing.closeFiles (h : Conversing welcome s fd i others) :
    s.closeFiles welcome = { s with sockets := [] } := by
  simp [System.closeFiles, System.close, h.connected, h.sockets, h.ne, h.ne.symm]

/-- At the end of a conversation the welcome socket is left. -/
theorem Conversing.close (h : Conversing welcome s fd i others) : ({ s with
      clients := s.clients.erase fd
      connected := s.connected.filter (· ≠ fd)
      server := .select }.close fd : System n) = { s with
    sockets := [(welcome, none)]
    clients := {welcome}
    connected := []
    server := .select } := by
  have hclients : s.clients.erase fd = {welcome} := by
    rw [h.clients, Finset.erase_insert (by simpa using h.ne)]
  simp [System.close, h.sockets, h.connected, hclients, h.ne, h.ne.symm]

end sockets

/-! ### The step lemma -/

section steps

variable {welcome : ℕ} {command : Fin n → List UInt8} {s s' : System n} {ret : Option ℕ}

theorem Handled.mono {s s' : System n} {handled : List (Fin n)} (h : Handled s handled)
    (hexecuted : s'.executed = s.executed) (hsent : s'.sent = s.sent)
    (hclient : s'.client = s.client) : Handled s' handled where
  executed := by rw [hexecuted, hsent, h.executed]
  written := by
    rw [hclient]
    exact h.written

/-- The server goes on, and what concerns the clients is as before. -/
theorem Serving.move (h : Serving welcome command s) {x : ServerPoint} (hat : At welcome s' x)
    (hs : s' = { s with
      server := x, sockets := s'.sockets, clients := s'.clients, connected := s'.connected,
      executed := s'.executed }) : Serving welcome command s' := by
  rw [hs] at hat ⊢
  exact ⟨hat, h.queue, h.nodup, h.backlog_le, h.waiting, h.fresh, h.joined, h.quiet, h.runs,
    h.badCloses⟩

/-- **Step lemma, for the server.** -/
theorem Serving.serverStep (h : Serving welcome command s)
    (hstep : serverStep welcome ret s = some s') : Serving welcome command s' := by
  have hpoint := h.at_server
  cases serverStep_cases hstep with
  | selectFails hat =>
      rw [hat] at hpoint
      rw [Idle.closeFiles hpoint]
      exact h.move (x := .exited _)
        ⟨rfl, s.accepted, List.prefix_rfl, hpoint.handled.mono rfl rfl rfl⟩ rfl
  | select hat hready =>
      rw [hat] at hpoint
      obtain ⟨hreadfds, hle, hbacklog⟩ := Idle.readfds hpoint hready
      exact h.move (x := .test _) ⟨⟨hpoint.sockets, hpoint.clients, hpoint.connected,
        hpoint.handled.mono rfl rfl rfl⟩, hreadfds, hle, hbacklog⟩ rfl
  | test hat =>
      rw [hat] at hpoint
      obtain ⟨hidle, rfl, hle, hbacklog⟩ := hpoint
      rw [if_pos (Finset.mem_singleton_self welcome)]
      exact h.move (x := .accept) ⟨⟨hidle.sockets, hidle.clients, hidle.connected,
        hidle.handled.mono rfl rfl rfl⟩, hle, hbacklog⟩ rfl
  | acceptFails hat =>
      rw [hat] at hpoint
      rw [hpoint.1.closeFiles]
      exact h.move (x := .exited _)
        ⟨rfl, s.accepted, List.prefix_rfl, hpoint.1.handled.mono rfl rfl rfl⟩ rfl
  | @accept fd i backlog hat hcons hfree =>
      rw [hat] at hpoint
      obtain ⟨hidle, hle, -⟩ := hpoint
      have hqueue := h.queue
      have hmax := h.backlog_le
      have hwaiting := h.waiting
      rw [hcons] at hqueue hmax hwaiting
      have hne : fd ≠ welcome := by
        rintro rfl
        rw [hidle.sockets] at hfree
        exact hfree List.mem_cons_self
      refine ⟨⟨i, s.accepted, [], ?_, hidle.handled.mono rfl rfl rfl, ?_, rfl, Nat.zero_le _, rfl,
        hle⟩, ?_, h.nodup, ?_, ?_, h.fresh, h.joined, h.quiet, h.runs, h.badCloses⟩
      · exact ⟨hne, by rw [hidle.sockets]; rfl, by rw [hidle.clients], by rw [hidle.connected]; rfl,
          rfl⟩
      · exact (hwaiting i List.mem_cons_self).symm
      · rw [hqueue, List.append_assoc]
        rfl
      · rw [List.length_cons] at hmax
        exact Nat.le_of_succ_le hmax
      · exact fun j hj => hwaiting j (List.mem_cons_of_mem i hj)
  | readFails hat =>
      rw [hat] at hpoint
      obtain ⟨i, others, received, hconv, hhandled, -⟩ := hpoint
      rw [hconv.closeFiles]
      have haccepted : others <+: s.accepted := by
        rw [hconv.accepted]
        exact List.prefix_append _ _
      exact h.move (x := .exited _) ⟨rfl, others, haccepted, hhandled.mono rfl rfl rfl⟩ rfl
  | eof hat hpeer hunread hclosed =>
      rw [hat] at hpoint
      obtain ⟨i, others, received, hconv, hhandled, hsent, -, -, hbuffer, hle⟩ := hpoint
      rw [hconv.peer] at hpeer
      obtain rfl := Option.some.inj hpeer
      refine h.move (x := .system _ _) ⟨i, others, ⟨hconv.ne, hconv.sockets, hconv.clients,
        hconv.connected, hconv.accepted⟩, hhandled.mono rfl rfl rfl, ?_, ?_, hle⟩ rfl
      · dsimp only
        rw [hclosed]
        rfl
      · dsimp only
        rw [hsent, hunread, List.append_nil, hbuffer]
  | @chunk fd bytesRead k buffer i hat hpeer hcount =>
      rw [hat] at hpoint
      obtain ⟨i', others, received, hconv, hhandled, hsent, rfl, hmax, rfl, hle⟩ := hpoint
      rw [hconv.peer] at hpeer
      obtain rfl := Option.some.inj hpeer
      have htake : ((s.unread i').take (k + 1)).length = k + 1 := by
        rw [List.length_take]
        omega
      have hnot : i' ∉ s.backlog := by
        have hnodup := h.nodup
        rw [h.queue, hconv.accepted] at hnodup
        intro hmem
        exact (List.nodup_append.mp hnodup).2.2 i' (by simp) i' hmem rfl
      refine ⟨⟨i', others, received ++ (s.unread i').take (k + 1), ⟨hconv.ne, hconv.sockets,
        hconv.clients, hconv.connected, hconv.accepted⟩, hhandled.mono rfl rfl rfl, ?_, ?_, ?_, ?_,
        hle⟩, h.queue, h.nodup, h.backlog_le, ?_, h.fresh, h.joined, ?_, h.runs, h.badCloses⟩
      · dsimp only
        rw [update_self, List.append_assoc, List.take_append_drop, hsent]
      · rw [List.length_append, htake]
      · omega
      · exact overwrite_request (by omega)
      · intro j hj
        have hne : j ≠ i' := by
          rintro rfl
          exact hnot hj
        dsimp only
        rw [update_of_ne hne]
        exact h.waiting j hj
      · intro j hj
        obtain ⟨hsent', hunread'⟩ := h.quiet j hj
        refine ⟨hsent', ?_⟩
        by_cases hji : j = i'
        · rw [hji] at hunread'
          rw [hunread'] at hcount
          simp at hcount
        · dsimp only
          rw [update_of_ne hji]
          exact hunread'
  | full hat hfull =>
      rw [hat] at hpoint
      obtain ⟨i, others, received, hconv, hhandled, hsent, hlength, hmax, rfl, hle⟩ := hpoint
      have hlen : received.length = maxBuffer := by omega
      refine h.move (x := .system _ _) ⟨i, others, ⟨hconv.ne, hconv.sockets, hconv.clients,
        hconv.connected, hconv.accepted⟩, hhandled.mono rfl rfl rfl, ?_, ?_, hle⟩ rfl
      · by_contra hnot
        have hempty := (h.quiet i (Bool.eq_false_of_not_eq_true hnot)).1
        rw [hsent, List.append_eq_nil_iff] at hempty
        rw [hempty.1] at hlen
        cases hlen
      · dsimp only
        rw [hsent, request, request, List.take_append_of_le_length hlen.ge,
          Nat.sub_eq_zero_of_le hlen.ge, Nat.sub_eq_zero_of_le]
        rw [List.length_append]
        omega
  | system hat =>
      rw [hat] at hpoint
      obtain ⟨i, others, hconv, hhandled, hwritten, rfl, hle⟩ := hpoint
      refine h.move (x := .release _) ⟨i, others, ⟨hconv.ne, hconv.sockets, hconv.clients,
        hconv.connected, hconv.accepted⟩, ⟨?_, ?_⟩, hle⟩ rfl
      · dsimp only
        rw [hhandled.executed, List.map_append]
        rfl
      · intro j hj
        rcases List.mem_append.mp hj with hj | hj
        · exact hhandled.written j hj
        · rw [List.mem_singleton.mp hj]
          exact hwritten
  | release hat =>
      rw [hat] at hpoint
      obtain ⟨i, others, hconv, hhandled, -⟩ := hpoint
      rw [hconv.close]
      refine h.move (x := .select) ⟨rfl, rfl, rfl, ?_⟩ rfl
      dsimp only
      rw [hconv.accepted]
      exact hhandled.mono rfl rfl rfl

/-- A client that is past its `write` stays so, and sends nothing more. -/
theorem Handled.client {s s' : System n} {handled : List (Fin n)} (h : Handled s handled)
    (hexecuted : s'.executed = s.executed)
    (hclient : ∀ j, (s.client j).written = true →
      (s'.client j).written = true ∧ s'.sent j = s.sent j) : Handled s' handled where
  executed := by
    rw [hexecuted, h.executed]
    exact List.map_congr_left fun j hj => by rw [(hclient j (h.written j hj)).2]
  written j hj := (hclient j (h.written j hj)).1

/-- A client goes on, and what concerns the server is as before. -/
theorem At.client {s s' : System n} {x : ServerPoint} (h : At welcome s x)
    (hs : s' = { s with
      client := s'.client, unread := s'.unread, backlog := s'.backlog, connects := s'.connects,
      sent := s'.sent })
    (hbacklog : s.backlog ≠ [] → s'.backlog ≠ [])
    (hreceived : ∀ j received, s.sent j = received ++ s.unread j →
      s'.sent j = received ++ s'.unread j)
    (hclient : ∀ j, (s.client j).written = true →
      (s'.client j).written = true ∧ s'.sent j = s.sent j) : At welcome s' x := by
  have hsockets : s'.sockets = s.sockets := by rw [hs]
  have hclients : s'.clients = s.clients := by rw [hs]
  have hconnected : s'.connected = s.connected := by rw [hs]
  have haccepted : s'.accepted = s.accepted := by rw [hs]
  have hhandled : ∀ {handled}, Handled s handled → Handled s' handled :=
    fun h => h.client (by rw [hs]) hclient
  have hidle : Idle welcome s → Idle welcome s' := fun h =>
    ⟨hsockets.trans h.sockets, hclients.trans h.clients, hconnected.trans h.connected,
      haccepted ▸ hhandled h.handled⟩
  have hconv : ∀ {fd j others}, Conversing welcome s fd j others →
      Conversing welcome s' fd j others := fun h =>
    ⟨h.ne, hsockets.trans h.sockets, hclients.trans h.clients, hconnected.trans h.connected,
      haccepted.trans h.accepted⟩
  cases x with
  | select => exact hidle h
  | test readfds => exact ⟨hidle h.1, h.2.1, h.2.2.1, hbacklog h.2.2.2⟩
  | accept => exact ⟨hidle h.1, h.2.1, hbacklog h.2.2⟩
  | read fd bytesRead buffer =>
      obtain ⟨j, others, received, hc, hh, hr, hrest⟩ := h
      exact ⟨j, others, received, hconv hc, hhandled hh, hreceived j received hr, hrest⟩
  | system fd buffer =>
      obtain ⟨j, others, hc, hh, hw, hb, hle⟩ := h
      obtain ⟨hw', hsent⟩ := hclient j hw
      exact ⟨j, others, hconv hc, hhandled hh, hw', by rw [hsent, hb], hle⟩
  | release fd =>
      obtain ⟨j, others, hc, hh, hle⟩ := h
      exact ⟨j, others, hconv hc, hhandled hh, hle⟩
  | exited error =>
      obtain ⟨hnil, handled, hbegins, hh⟩ := h
      exact ⟨hsockets.trans hnil, handled, haccepted ▸ hbegins, hhandled hh⟩

/-- A client gives up, or closes its socket. -/
theorem Serving.moveClient (h : Serving welcome command s) (i : Fin n) {y : ClientPoint}
    (hy : y.written = true) : Serving welcome command { s with client := update s.client i y } := by
  have hother : ∀ {j z}, update s.client i y j = z → z.written = false → s.client j = z := by
    intro j z hj hz
    by_cases hji : j = i
    · rw [hji, update_self] at hj
      rw [← hj, hy] at hz
      cases hz
    · rwa [update_of_ne hji] at hj
  refine ⟨h.at_server.client rfl id (fun _ _ => id) (fun j hj => ⟨?_, rfl⟩), h.queue, h.nodup,
    h.backlog_le, h.waiting, fun j hj => h.fresh j (hother hj rfl),
    fun j hj => h.joined j (hother hj rfl), fun j hj => h.quiet j ?_, h.runs, h.badCloses⟩
  · dsimp only
    by_cases hji : j = i
    · rw [hji, update_self, hy]
    · rwa [update_of_ne hji]
  · rw [hother rfl hj]
    exact hj

/-- **Step lemma, for the clients.** -/
theorem Serving.clientStep (h : Serving welcome command s) {i : Fin n}
    (hstep : clientStep welcome (command i) i ret s = some s') : Serving welcome command s' := by
  cases clientStep_cases hstep with
  | connectFails | writeFails | close => exact h.moveClient i rfl
  | connect hat hlisten hroom =>
      have hfresh := h.fresh i hat
      have hquiet := h.quiet i (by rw [hat]; rfl)
      refine ⟨h.at_server.client rfl (fun _ => List.append_ne_nil_of_right_ne_nil _
        (List.cons_ne_nil _ _)) (fun _ _ => id) fun j hj => ⟨?_, rfl⟩, ?_, ?_, ?_, ?_, ?_, ?_, ?_,
        h.runs, h.badCloses⟩
      · have hji : j ≠ i := by
          rintro rfl
          rw [hat] at hj
          cases hj
        dsimp only
        rwa [update_of_ne hji]
      · rw [h.queue, List.append_assoc]
      · refine List.nodup_append.mpr ⟨h.nodup, List.nodup_singleton i, ?_⟩
        rintro j hj _ hi rfl
        exact hfresh (List.mem_singleton.mp hi ▸ hj)
      · rw [List.length_append]
        exact hroom
      · intro j hj
        rcases List.mem_append.mp hj with hj | hj
        · exact h.waiting j hj
        · rw [List.mem_singleton.mp hj]
          exact hquiet.2.trans hquiet.1.symm
      · intro j hj
        dsimp only at hj
        by_cases hji : j = i
        · rw [hji, update_self] at hj
          cases hj
        · rw [update_of_ne hji] at hj
          simpa [hji] using h.fresh j hj
      · intro j hj
        dsimp only at hj
        by_cases hji : j = i
        · rw [hji]
          exact List.mem_append_right _ (List.mem_singleton_self i)
        · rw [update_of_ne hji] at hj
          exact List.mem_append_left _ (h.joined j hj)
      · intro j hj
        dsimp only at hj
        by_cases hji : j = i
        · rw [hji]
          exact hquiet
        · rw [update_of_ne hji] at hj
          exact h.quiet j hj
  | write hat written =>
      obtain ⟨hsent, hunread⟩ := h.quiet i (by rw [hat]; rfl)
      have hne : ∀ {j}, (s.client j).written = true → j ≠ i := by
        rintro j hj rfl
        rw [hat] at hj
        cases hj
      have hother : ∀ {j z}, update s.client i .close j = z → z.written = false →
          j ≠ i ∧ s.client j = z := by
        intro j z hj hz
        have hji : j ≠ i := by
          rintro rfl
          rw [update_self] at hj
          rw [← hj] at hz
          cases hz
        rw [update_of_ne hji] at hj
        exact ⟨hji, hj⟩
      refine ⟨h.at_server.client rfl id ?_ fun j hj => ⟨?_, update_of_ne (hne hj) _ _⟩, h.queue,
        h.nodup, h.backlog_le, ?_, fun j hj => h.fresh j (hother hj rfl).2,
        fun j hj => h.joined j (hother hj rfl).2, fun j hj => ?_, fun j => ?_, h.badCloses⟩
      · intro j received hreceived
        dsimp only
        by_cases hji : j = i
        · rw [hji] at hreceived ⊢
          rw [hsent, hunread, List.append_nil] at hreceived
          rw [update_self, update_self, hsent, hunread, ← hreceived]
          rfl
        · rwa [update_of_ne hji, update_of_ne hji]
      · dsimp only
        rwa [update_of_ne (hne hj)]
      · intro j hj
        dsimp only
        by_cases hji : j = i
        · rw [hji, update_self, update_self, hsent, hunread]
        · rw [update_of_ne hji, update_of_ne hji]
          exact h.waiting j hj
      · obtain ⟨hji, hj'⟩ := hother rfl hj
        dsimp only
        rw [update_of_ne hji, update_of_ne hji]
        exact h.quiet j (by rw [hj']; exact hj)
      · dsimp only
        by_cases hji : j = i
        · rw [hji, update_self, hsent]
          exact ⟨some written, rfl⟩
        · rw [update_of_ne hji]
          exact h.runs j

end steps

/-! ## Whole runs -/

section runs

variable {welcome : ℕ} {command : Fin n → List UInt8} {s : System n}

theorem serving_fresh : Serving welcome command (freshSystem n welcome) where
  at_server := ⟨rfl, rfl, rfl, rfl, fun _ hmem => absurd hmem List.not_mem_nil⟩
  queue := rfl
  nodup := List.nodup_nil
  backlog_le := Nat.zero_le _
  waiting _ hmem := absurd hmem List.not_mem_nil
  fresh _ _ := List.not_mem_nil
  joined _ h := by cases h
  quiet _ _ := ⟨rfl, rfl⟩
  runs _ := ⟨none, rfl⟩
  badCloses := rfl

/-- **Run rule.** The invariant holds whatever the calls return and however the parties take
turns. -/
theorem serving_of_reachable (h : (service welcome command).Reachable s) :
    Serving welcome command s := by
  refine h.invariant (P := Serving welcome command) ?_ ?_
  · rintro _ rfl
    exact serving_fresh
  · rintro (ret | ⟨i, ret⟩) s s' hs hstep
    · exact hs.serverStep hstep
    · exact hs.clientStep hstep

/-- The clients whose requests have been executed are the first that were accepted. -/
theorem Serving.exists_handled (h : Serving welcome command s) :
    ∃ handled, handled <+: s.accepted ∧ Handled s handled := by
  have hpoint := h.at_server
  cases hat : s.server with
  | select =>
      rw [hat] at hpoint
      exact ⟨_, List.prefix_rfl, Idle.handled hpoint⟩
  | test | accept =>
      rw [hat] at hpoint
      exact ⟨_, List.prefix_rfl, hpoint.1.handled⟩
  | read =>
      rw [hat] at hpoint
      obtain ⟨i, others, -, hconv, hhandled, -⟩ := hpoint
      exact ⟨others, hconv.accepted ▸ List.prefix_append _ _, hhandled⟩
  | system =>
      rw [hat] at hpoint
      obtain ⟨i, others, hconv, hhandled, -⟩ := hpoint
      exact ⟨others, hconv.accepted ▸ List.prefix_append _ _, hhandled⟩
  | release =>
      rw [hat] at hpoint
      obtain ⟨i, others, hconv, hhandled, -⟩ := hpoint
      exact ⟨_, hconv.accepted ▸ List.prefix_rfl, hhandled⟩
  | exited =>
      rw [hat] at hpoint
      exact hpoint.2

/-- There are at most two sockets, and none after an exit. -/
theorem Serving.sockets (h : Serving welcome command s) :
    s.sockets <+: [(welcome, none)] ∨ ∃ fd i, s.sockets = [(welcome, none), (fd, some i)] := by
  have hpoint := h.at_server
  cases hat : s.server with
  | select =>
      rw [hat] at hpoint
      exact .inl (Idle.sockets hpoint ▸ List.prefix_rfl)
  | test | accept =>
      rw [hat] at hpoint
      exact .inl (hpoint.1.sockets ▸ List.prefix_rfl)
  | read =>
      rw [hat] at hpoint
      obtain ⟨i, others, -, hconv, -⟩ := hpoint
      exact .inr ⟨_, i, hconv.sockets⟩
  | system | release =>
      rw [hat] at hpoint
      obtain ⟨i, others, hconv, -⟩ := hpoint
      exact .inr ⟨_, i, hconv.sockets⟩
  | exited =>
      rw [hat] at hpoint
      exact .inl (hpoint.1 ▸ List.nil_prefix)

/-- **The server is safe**, whatever its calls and those of the clients return, and however they
take turns. The requests are executed in the order of the connections, each of them at most once,
and what is executed is the `request` of what the client has sent, however it came in; what it has
sent is what one run of `run_client` sends. There is one conversation at a time; between two of them
the welcome socket is all that is open, after an exit nothing is, and no socket is closed twice. -/
theorem server_safe (hr : (service welcome command).Reachable s) :
    (s.connects.Nodup ∧
      s.executed = (s.connects.take s.executed.length).map fun i => request (s.sent i)) ∧
    (∀ i ∈ s.connects.take s.executed.length, ∃ written,
      s.sent i = (runClient (command i) (command i).length written).getD []) ∧
    (s.sockets.length ≤ 2 ∧ (s.server = .select → s.sockets = [(welcome, none)]) ∧
      ((∃ error, s.server = .exited error) → s.sockets = []) ∧ s.badCloses = 0) := by
  have h := serving_of_reachable hr
  obtain ⟨handled, hbegins, hexecuted, -⟩ := h.exists_handled
  have hlength : s.executed.length = handled.length := by rw [hexecuted, List.length_map]
  have htake : s.connects.take s.executed.length = handled := by
    rw [hlength, h.queue]
    exact (List.prefix_iff_eq_take.mp (hbegins.trans (List.prefix_append _ _))).symm
  refine ⟨⟨h.nodup, by rw [htake]; exact hexecuted⟩, fun i _ => h.runs i, ?_, ?_, ?_, h.badCloses⟩
  · rcases h.sockets with hsockets | ⟨fd, i, hsockets⟩
    · exact hsockets.length_le.trans (Nat.le_succ 1)
    · rw [hsockets]
      exact le_rfl
  · intro hat
    have hpoint := h.at_server
    rw [hat] at hpoint
    exact Idle.sockets hpoint
  · rintro ⟨error, hat⟩
    have hpoint := h.at_server
    rw [hat] at hpoint
    exact hpoint.1

end runs

/-! ### Two clients -/

/-- The client with `ls`. -/
def lsClient : Fin 2 := ⟨0, Nat.zero_lt_two⟩

/-- The client with `pwd`. -/
def pwdClient : Fin 2 := ⟨1, Nat.one_lt_two⟩

/-- `ls` and `pwd`. -/
def twoCommands : Fin 2 → List UInt8 := ![[108, 115], [112, 119, 100]]

/-- The second client connects before the first, the first writes before the second, and the server
gets `pwd` in two pieces. -/
def twoClients : List (Label 2) :=
  [.client pwdClient (some 0), .client lsClient (some 0), .client lsClient (some 2),
    .server (some 1), .server (some 0), .server (some 4), .client pwdClient (some 3),
    .server (some 1), .client pwdClient (some 0), .server (some 2), .server (some 0),
    .server (some 0), .server (some 0), .client lsClient (some 0), .server (some 1),
    .server (some 0), .server (some 4), .server (some 2), .server (some 0), .server (some 0),
    .server (some 0)]

/-- Both commands have been executed. -/
theorem server_safe_run : ∃ s : System 2,
    (service 3 twoCommands).run twoClients (freshSystem 2 3) = some s ∧
    s.executed = [request [112, 119, 100], request [108, 115]] ∧ s.sockets = [(3, none)] := by
  obtain ⟨s, hs, hconnects, hlength, hsent0, hsent1, hat⟩ : ∃ s : System 2,
      (service 3 twoCommands).run twoClients (freshSystem 2 3) = some s ∧ s.connects = [1, 0] ∧
      s.executed.length = 2 ∧ s.sent 0 = [108, 115] ∧ s.sent 1 = [112, 119, 100] ∧
      s.server = .select := ⟨_, rfl, rfl, rfl, rfl, rfl, rfl⟩
  obtain ⟨⟨-, hexecuted⟩, -, -, hsockets, -⟩ := server_safe (.run (.init rfl) hs)
  refine ⟨s, hs, ?_, hsockets hat⟩
  rw [hexecuted, hlength, hconnects]
  simp [hsent0, hsent1]

end CoreOS.Sockets
