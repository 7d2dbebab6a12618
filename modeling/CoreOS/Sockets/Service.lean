import CoreOS.Lib.Threads
import CoreOS.Sockets.Server
import Mathlib.Algebra.BigOperators.Fin
import Mathlib.Data.Fintype.Card
import Mathlib.Data.List.Perm.Basic

/-!
# Every client is served

The server and its clients again, when no call fails and every `write` takes the whole command.

* `Sound`: such a step. `Faultless`: what is known then; `Faultless.step` is the step lemma.
* `serviceMeasure`: the calls that are left; `serviceMeasure_lt`.
* `serve_all`: **every schedule ends, and when it does every command has been executed, in the order
  of the connections.**
* `served_iff`: `select` is called for the first `ADD_ONE(MAX_CLIENTS)` descriptors, and **the
  server serves a client if and only if the welcome socket is one of them.**
-/

namespace CoreOS.Sockets

open CoreOS.Lib Function Finset

variable {n welcome : ℕ} {command : Fin n → List UInt8} {s s' : System n}

/-- The call does not fail, and a `write` takes everything. -/
def Sound (command : Fin n → List UInt8) (s : System n) : Label n → Prop
  | .server ret => ret ≠ none
  | .client i ret => ret ≠ none ∧ (s.client i = .write → ret = some (command i).length)

instance (s : System n) (label : Label n) : Decidable (Sound command s label) :=
  match label with
  | .server ret => inferInstanceAs (Decidable (ret ≠ none))
  | .client i ret => inferInstanceAs (Decidable (ret ≠ none ∧
      (s.client i = .write → ret = some (command i).length)))

/-! ## What is known -/

/-- What is known of a state when nothing has failed. -/
structure Faultless (welcome : ℕ) (command : Fin n → List UInt8) (s : System n) : Prop where
  serving : Serving welcome command s
  running : ∀ error, s.server ≠ .exited error
  sent : ∀ i, (s.client i).written = true → i ∈ s.connects ∧ s.sent i = command i

namespace Faultless

theorem fresh : Faultless welcome command (freshSystem n welcome) where
  serving := serving_fresh
  running _ := nofun
  sent _ h := by cases h

/-- **Step lemma.** -/
theorem step (h : Faultless welcome command s) {label : Label n} (hok : Sound command s label)
    (hstep : (service welcome command).step label s = some s') : Faultless welcome command s' := by
  cases label with
  | server ret =>
      have hserving := h.serving.serverStep hstep
      cases serverStep_cases hstep with
      | selectFails | acceptFails | readFails => exact absurd rfl hok
      | test hat =>
          refine ⟨hserving, fun error => ?_, h.sent⟩
          dsimp only
          split_ifs <;> exact nofun
      | release hat =>
          have hpoint := h.serving.at_server
          rw [hat] at hpoint
          obtain ⟨i, others, hconv, -⟩ := hpoint
          rw [hconv.close] at hserving ⊢
          exact ⟨hserving, fun _ => nofun, h.sent⟩
      | _ => exact ⟨hserving, fun _ => nofun, h.sent⟩
  | client i ret =>
      have hserving := h.serving.clientStep hstep
      obtain ⟨hret, hwhole⟩ := hok
      cases clientStep_cases hstep with
      | connectFails | writeFails => exact absurd rfl hret
      | connect hat =>
          refine ⟨hserving, h.running, fun j hj => ?_⟩
          have hji : j ≠ i := by
            rintro rfl
            dsimp only at hj
            rw [update_self] at hj
            cases hj
          dsimp only at hj
          rw [update_of_ne hji] at hj
          obtain ⟨hmem, hsent⟩ := h.sent j hj
          exact ⟨List.mem_append_left _ hmem, hsent⟩
      | write hat written =>
          refine ⟨hserving, h.running, fun j hj => ?_⟩
          dsimp only at hj ⊢
          by_cases hji : j = i
          · have hcount : written.count = (command i).length := Option.some.inj (hwhole hat)
            have hquiet := (h.serving.quiet i (by rw [hat]; rfl)).1
            rw [hji, update_self, hquiet, hcount, List.take_length]
            exact ⟨h.serving.joined i hat, rfl⟩
          · rw [update_of_ne hji] at hj ⊢
            exact h.sent j hj
      | close hat =>
          refine ⟨hserving, h.running, fun j hj => h.sent j ?_⟩
          dsimp only at hj
          by_cases hji : j = i
          · rw [hji, hat]
            rfl
          · rwa [update_of_ne hji] at hj

end Faultless

/-! ## The measure -/

/-- The calls that a client has left. -/
def ClientPoint.callsLeft : ClientPoint → ℕ
  | connect => 3
  | write => 2
  | close => 1
  | exited => 0

/-- The steps that the server has left before it has to accept another client. -/
def ServerPoint.stepsLeft : ServerPoint → ℕ
  | select => 2
  | test _ => 1
  | accept | exited _ => 0
  | read _ bytesRead _ => maxBuffer - bytesRead + 5
  | system _ _ => 4
  | release _ => 3

/-- The steps that the server spends on a client. -/
def stepsPerClient : ℕ := maxBuffer + 6

/-- The steps that are left when nothing fails. -/
def serviceMeasure (s : System n) : ℕ :=
  ∑ i, (s.client i).callsLeft + (n - s.accepted.length) * stepsPerClient + s.server.stepsLeft

/-- A client that goes on has fewer calls left. -/
theorem sum_callsLeft_lt {i : Fin n} {y : ClientPoint} (h : y.callsLeft < (s.client i).callsLeft) :
    ∑ j, (update s.client i y j).callsLeft < ∑ j, (s.client j).callsLeft := by
  have hsum := sum_update ClientPoint.callsLeft s.client i y
  omega

/-- Nobody is accepted twice. -/
theorem Serving.accepted_lt (h : Serving welcome command s) (hne : s.backlog ≠ []) :
    s.accepted.length < n := by
  have hlength := h.nodup.length_le_card
  rw [h.queue, List.length_append, Fintype.card_fin] at hlength
  have hpos := List.length_pos_iff.mpr hne
  omega

/-- **Every step lowers the measure.** -/
theorem serviceMeasure_lt (h : Faultless welcome command s) {label : Label n}
    (hok : Sound command s label) (hstep : (service welcome command).step label s = some s') :
    serviceMeasure s' < serviceMeasure s := by
  have hpoint := h.serving.at_server
  cases label with
  | server ret =>
      cases serverStep_cases hstep with
      | selectFails | acceptFails | readFails => exact absurd rfl hok
      | select hat hready =>
          simp only [serviceMeasure, hat, ServerPoint.stepsLeft]
          omega
      | test hat =>
          rw [hat] at hpoint
          obtain ⟨-, rfl, -⟩ := hpoint
          rw [if_pos (mem_singleton_self welcome)]
          simp only [serviceMeasure, hat, ServerPoint.stepsLeft]
          omega
      | accept hat hcons =>
          have hlt := h.serving.accepted_lt (by rw [hcons]; exact List.cons_ne_nil _ _)
          obtain ⟨k, hk⟩ := Nat.exists_eq_add_of_lt hlt
          have hleft : n - s.accepted.length = k + 1 := by omega
          have hleft' : n - (s.accepted.length + 1) = k := by omega
          simp only [serviceMeasure, hat, ServerPoint.stepsLeft, List.length_append,
            List.length_singleton, hleft, hleft', add_mul, stepsPerClient]
          omega
      | eof hat =>
          simp only [serviceMeasure, hat, ServerPoint.stepsLeft]
          omega
      | chunk hat hpeer hcount =>
          simp only [serviceMeasure, hat, ServerPoint.stepsLeft]
          omega
      | full hat =>
          simp only [serviceMeasure, hat, ServerPoint.stepsLeft]
          omega
      | system hat =>
          simp only [serviceMeasure, hat, ServerPoint.stepsLeft]
          omega
      | release hat =>
          rw [hat] at hpoint
          obtain ⟨i, others, hconv, -⟩ := hpoint
          rw [hconv.close]
          simp only [serviceMeasure, hat, ServerPoint.stepsLeft]
          omega
  | client i ret =>
      have hdrop : ∑ j, (s'.client j).callsLeft < ∑ j, (s.client j).callsLeft ∧
          s'.accepted = s.accepted ∧ s'.server = s.server := by
        cases clientStep_cases hstep with
        | connectFails | writeFails => exact absurd rfl hok.1
        | connect hat | write hat | close hat =>
            refine ⟨sum_callsLeft_lt ?_, rfl, rfl⟩
            rw [hat]
            exact Nat.le_of_ble_eq_true rfl
      obtain ⟨hlt, haccepted, hserver⟩ := hdrop
      rw [serviceMeasure, serviceMeasure, haccepted, hserver]
      omega

/-! ## Progress -/

/-- Everybody has exited, and the server waits in `select`. -/
structure Done (s : System n) : Prop where
  server : s.server = .select
  backlog : s.backlog = []
  client : ∀ i, s.client i = .exited

section progress

variable (h : Faultless welcome command s)
include h

/-- A client that has connected waits for nobody. -/
theorem Faultless.exists_step_client {i : Fin n} (hi : i ∈ s.connects)
    (hopen : s.client i ≠ .exited) :
    ∃ label, Sound command s label ∧ (service welcome command).step label s ≠ none := by
  cases hat : s.client i with
  | connect => exact absurd hi (h.serving.fresh i hat)
  | write =>
      exact ⟨.client i (some (command i).length), ⟨nofun, fun _ => rfl⟩,
        by simp [service, clientStep, hat]⟩
  | close =>
      refine ⟨.client i (some 0), ⟨nofun, fun hwrite => ?_⟩, by simp [service, clientStep, hat]⟩
      rw [hat] at hwrite
      cases hwrite
  | exited => exact absurd hat hopen

/-- In `select` with no connection waiting, a client that has not exited can move. -/
theorem Faultless.exists_step_idle (hidle : Idle welcome s) (hbacklog : s.backlog = [])
    {i : Fin n} (hi : s.client i ≠ .exited) :
    ∃ label, Sound command s label ∧ (service welcome command).step label s ≠ none := by
  cases hat : s.client i with
  | connect =>
      refine ⟨.client i (some 0), ⟨nofun, fun hwrite => ?_⟩, ?_⟩
      · rw [hat] at hwrite
        cases hwrite
      · simp [service, clientStep, hat, hidle.sockets, hbacklog, maxClients]
  | write => exact h.exists_step_client (h.serving.joined i hat) hi
  | close => exact h.exists_step_client (h.sent i (by rw [hat]; rfl)).1 hi
  | exited => exact absurd hat hi

/-- In `read` the server gets what is there, or waits for its client. -/
theorem Faultless.exists_step_read {fd bytesRead : ℕ} {buffer : List UInt8}
    (hat : s.server = .read fd bytesRead buffer) :
    ∃ label, Sound command s label ∧ (service welcome command).step label s ≠ none := by
  have hpoint := h.serving.at_server
  rw [hat] at hpoint
  obtain ⟨i, others, received, hconv, -⟩ := hpoint
  by_cases hmore : bytesRead < maxBuffer
  · by_cases hunread : s.unread i = []
    · by_cases hclosed : s.client i = .exited
      · exact ⟨.server (some 0), nofun,
          by simp [service, serverStep, hat, hmore, hconv.peer, hunread, hclosed]⟩
      · refine h.exists_step_client (i := i) ?_ hclosed
        rw [h.serving.queue, hconv.accepted]
        simp
    · have hcount : 0 + 1 ≤ min (maxBuffer - bytesRead) (s.unread i).length := by
        have hpos := List.length_pos_iff.mpr hunread
        omega
      refine ⟨.server (some (0 + 1)), nofun, ?_⟩
      simp only [service, serverStep, hat, if_pos hmore, hconv.peer, if_pos hcount]
      exact Option.some_ne_none _
  · exact ⟨.server (some 0), nofun, by simp [service, serverStep, hat, hmore]⟩

/-- **Nobody is left behind**: until everybody has exited and the server has nothing to do, somebody
can move. -/
theorem Faultless.exists_step (hwelcome : welcome ≤ maxClients) (hdone : ¬ Done s) :
    ∃ label, Sound command s label ∧ (service welcome command).step label s ≠ none := by
  have hpoint := h.serving.at_server
  cases hat : s.server with
  | select =>
      rw [hat] at hpoint
      by_cases hbacklog : s.backlog = []
      · obtain ⟨i, hi⟩ : ∃ i, s.client i ≠ .exited := by
          by_contra hall
          exact hdone ⟨hat, hbacklog, fun i => not_not.mp fun hi => hall ⟨i, hi⟩⟩
        exact h.exists_step_idle hpoint hbacklog hi
      · have hready : s.clients.filter (fun fd => fd < maxClients + 1 ∧ s.Ready fd) ≠ ∅ := by
          refine Finset.nonempty_iff_ne_empty.mp ⟨welcome, ?_⟩
          rw [Finset.mem_filter, Idle.clients hpoint, Finset.mem_singleton]
          exact ⟨rfl, Nat.lt_succ_of_le hwelcome, (Idle.ready_iff hpoint).mpr hbacklog⟩
        refine ⟨.server (some 0), nofun, ?_⟩
        simp only [service, serverStep, hat, if_neg hready]
        exact Option.some_ne_none _
  | accept =>
      rw [hat] at hpoint
      obtain ⟨hidle, -, hbacklog⟩ := hpoint
      obtain ⟨i, backlog, hcons⟩ := List.exists_cons_of_ne_nil hbacklog
      exact ⟨.server (some (welcome + 1)), nofun,
        by simp [service, serverStep, hat, hcons, hidle.sockets]⟩
  | read fd bytesRead buffer => exact h.exists_step_read hat
  | test | system | release =>
      exact ⟨.server (some 0), nofun, by simp [service, serverStep, hat]⟩
  | exited error => exact absurd hat (h.running error)

/-- What has been done in the end. -/
theorem Faultless.done (hdone : Done s) :
    s.connects.Perm (List.finRange n) ∧ s.executed = s.connects.map fun i => request (command i) := by
  have hpoint := h.serving.at_server
  rw [hdone.server] at hpoint
  have hsent : ∀ i, i ∈ s.connects ∧ s.sent i = command i := fun i =>
    h.sent i (by rw [hdone.client i]; rfl)
  have hqueue : s.connects = s.accepted := by
    rw [h.serving.queue, hdone.backlog, List.append_nil]
  constructor
  · exact (List.perm_ext_iff_of_nodup h.serving.nodup (List.nodup_finRange n)).mpr fun i =>
      ⟨fun _ => List.mem_finRange i, fun _ => (hsent i).1⟩
  · rw [(Idle.handled hpoint).executed, hqueue]
    exact List.map_congr_left fun i _ => by rw [(hsent i).2]

end progress

/-! ## Whole runs -/

/-- The string that `system` takes from the buffer. -/
theorem cString_request {stream : List UInt8} (hnul : 0 ∉ stream)
    (hlt : stream.length < maxBuffer) : cString 0 (request stream) = some stream := by
  have hstring := handleRequest_string byteByByte_sound hnul
  rwa [handleRequest_eq_request byteByByte_sound, Option.bind_some, if_pos hlt] at hstring

/-- A bound on the steps of a server and `n` clients. -/
def serviceBound (n : ℕ) : ℕ := 3 * n + n * stepsPerClient + 2

theorem serviceMeasure_fresh : serviceMeasure (freshSystem n welcome) = serviceBound n := by
  simp [serviceMeasure, serviceBound, freshSystem, ClientPoint.callsLeft, ServerPoint.stepsLeft,
    mul_comm]

/-- **Every client is served**, if no call fails, every `write` takes the whole command, and the
commands are strings that fit into the buffer: no schedule of the server and its `n` clients is
longer than `serviceBound`, and one that cannot be continued has executed every command once, in the
order in which the clients connected, and the server waits for more. -/
theorem serve_all (hwelcome : welcome ≤ maxClients)
    (hcommand : ∀ i, 0 ∉ command i ∧ (command i).length < maxBuffer) {labels : List (Label n)}
    (hrun : (service welcome command).runBy (Sound command) labels (freshSystem n welcome) =
      some s) :
    labels.length ≤ serviceBound n ∧
    ((∀ label, Sound command s label → (service welcome command).step label s = none) →
      s.server = .select ∧ s.connects.Perm (List.finRange n) ∧
        s.executed.map (cString 0) = s.connects.map fun i => some (command i)) := by
  obtain ⟨-, h, hle⟩ := Machine.runBy_measure
    (R := fun s (_ : Unit) => Faultless welcome command s) (μ := fun s _ => serviceMeasure s)
    (fun _ _ _ t h hok hstep => ⟨t, h.step hok hstep, serviceMeasure_lt h hok hstep⟩) labels
    (t := ()) .fresh hrun
  rw [serviceMeasure_fresh] at hle
  refine ⟨by omega, fun hstuck => ?_⟩
  have hdone : Done s := by
    by_contra hdone
    obtain ⟨label, hok, hstep⟩ := h.exists_step hwelcome hdone
    exact hstep (hstuck label hok)
  obtain ⟨hperm, hexecuted⟩ := h.done hdone
  refine ⟨hdone.server, hperm, ?_⟩
  rw [hexecuted, List.map_map]
  exact List.map_congr_left fun i _ => cString_request (hcommand i).1 (hcommand i).2

/-- Nothing more can happen after the two clients. -/
theorem serve_all_run : ∃ s : System 2,
    (service 3 twoCommands).runBy (Sound twoCommands) twoClients (freshSystem 2 3) = some s ∧
    twoClients.length ≤ serviceBound 2 ∧
    s.executed.map (cString 0) = [some [112, 119, 100], some [108, 115]] := by
  obtain ⟨s, hs, hconnects, hat, hbacklog, hsockets, hclients, hclient⟩ : ∃ s : System 2,
      (service 3 twoCommands).runBy (Sound twoCommands) twoClients (freshSystem 2 3) = some s ∧
      s.connects = [1, 0] ∧ s.server = .select ∧ s.backlog = [] ∧ s.sockets = [(3, none)] ∧
      s.clients = {3} ∧ s.client = ![.exited, .exited] :=
    ⟨_, rfl, rfl, rfl, rfl, rfl, rfl, by decide +kernel⟩
  have hserve := serve_all (by decide) (by decide) hs
  have hstuck : ∀ label, Sound twoCommands s label →
      (service 3 twoCommands).step label s = none := by
    rintro (ret | ⟨i, ret⟩) hok
    · obtain ⟨k, rfl⟩ := Option.ne_none_iff_exists'.mp hok
      have hready : ¬ s.Ready 3 := by simp [System.Ready, hsockets, hbacklog]
      simp [service, serverStep, hat, hclients, Finset.filter_singleton, hready]
    · fin_cases i <;> simp [service, clientStep, hclient]
  refine ⟨s, hs, hserve.1, ?_⟩
  rw [(hserve.2 hstuck).2.2, hconnects]
  rfl

/-- Nobody is accepted over a welcome socket that `select` does not look at. -/
theorem welcome_le_of_accepted (hr : (service welcome command).Reachable s)
    (hne : s.accepted ≠ []) : welcome ≤ maxClients := by
  have hinv : Serving welcome command s ∧ (s.accepted ≠ [] → welcome ≤ maxClients) := by
    refine hr.invariant
      (P := fun s => Serving welcome command s ∧ (s.accepted ≠ [] → welcome ≤ maxClients)) ?_ ?_
    · rintro _ rfl
      exact ⟨serving_fresh, fun h => absurd rfl h⟩
    · rintro (ret | ⟨i, ret⟩) s s' ⟨hs, hle⟩ hstep
      · refine ⟨hs.serverStep hstep, ?_⟩
        have hpoint := hs.at_server
        cases serverStep_cases hstep with
        | accept hat =>
            rw [hat] at hpoint
            exact fun _ => hpoint.2.1
        | selectFails hat =>
            rw [hat] at hpoint
            rwa [Idle.closeFiles hpoint]
        | acceptFails hat =>
            rw [hat] at hpoint
            rwa [hpoint.1.closeFiles]
        | readFails hat =>
            rw [hat] at hpoint
            obtain ⟨i, others, received, hconv, -⟩ := hpoint
            rwa [hconv.closeFiles]
        | release hat =>
            rw [hat] at hpoint
            obtain ⟨i, others, hconv, -⟩ := hpoint
            rwa [hconv.close]
        | _ => exact hle
      · refine ⟨hs.clientStep hstep, ?_⟩
        cases clientStep_cases hstep with
        | _ => exact hle
  exact hinv.2 hne

/-- **When the server serves anybody**: if and only if its welcome socket is among the first
`ADD_ONE(MAX_CLIENTS)` descriptors, which are those that `select` is called for. Otherwise it waits
for ever, whoever connects. -/
theorem served_iff (hn : 0 < n) :
    (∃ s, (service welcome command).Reachable s ∧ s.executed ≠ []) ↔ welcome ≤ maxClients := by
  constructor
  · rintro ⟨s, hr, hne⟩
    obtain ⟨handled, hbegins, hhandled, -⟩ := (serving_of_reachable hr).exists_handled
    refine welcome_le_of_accepted hr ?_
    rintro haccepted
    rw [haccepted, List.prefix_nil] at hbegins
    rw [hhandled, hbegins] at hne
    exact hne rfl
  · intro hwelcome
    have hmove : ∀ s, Faultless welcome command s → Done s ∨ ∃ label s',
        Sound command s label ∧ (service welcome command).step label s = some s' ∧
          Faultless welcome command s' ∧ serviceMeasure s' < serviceMeasure s := by
      intro s h
      by_cases hdone : Done s
      · exact .inl hdone
      · obtain ⟨label, hok, hstep⟩ := h.exists_step hwelcome hdone
        obtain ⟨s', hs'⟩ := Option.ne_none_iff_exists'.mp hstep
        exact .inr ⟨label, s', hok, hs', h.step hok hs', serviceMeasure_lt h hok hs'⟩
    obtain ⟨s, hr, h, hdone⟩ := Machine.ReachableBy.exists_done hmove (.init rfl) .fresh
    obtain ⟨hperm, hexecuted⟩ := h.done hdone
    refine ⟨s, hr.reachable, ?_⟩
    rw [hexecuted]
    intro hnil
    have hlength := hperm.length_eq
    rw [List.map_eq_nil_iff.mp hnil, List.length_finRange] at hlength
    exact absurd hlength hn.ne

/-- With the usual descriptor, and with the first that is too large. -/
theorem served_iff_two : (∃ s, (service 3 twoCommands).Reachable s ∧ s.executed ≠ []) ∧
    ¬ ∃ s, (service 6 twoCommands).Reachable s ∧ s.executed ≠ [] :=
  ⟨(served_iff (by decide)).mpr (by decide),
    fun h => absurd ((served_iff (by decide)).mp h) (by decide)⟩

end CoreOS.Sockets
