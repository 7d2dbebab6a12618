import CoreOS.Sockets.Transfer
import Mathlib.Algebra.Group.Nat.Defs

/-!
# The read loop and the pieces a stream comes in

`ex5/sockets.cpp`, `read_from_socket` again, with the calls of `read` that it makes and with its
return value as the `size_t` that the caller sees.

* `readFromSocketCalls`: the loop with its calls written down; `readFromSocketCalls_eq` is that
  nothing else about it is new.
* `sizeT`: the return value; `FAILURE` is a number like the others.
* `readFromSocket_fragmentation`: **what is read does not depend on the pieces**, no call stores
  behind the buffer, and `FAILURE` is returned for a failed call and for nothing else.
-/

namespace CoreOS.Sockets

open CoreOS.Lib

/-! ## The calls -/

/-- A call of `read`. -/
structure ReadCall where
  /-- Where in the buffer it stores. -/
  offset : ℕ
  count : ℕ
  /-- `none` is `FAILURE`. -/
  thisRead : Option ℕ
deriving DecidableEq

/-- The call stores no byte of the buffer from `readLen` on. -/
def ReadCall.Within (readLen : ℕ) (call : ReadCall) : Prop := call.offset + call.count ≤ readLen

/-- The call returned `FAILURE`. -/
def ReadCall.Failed (call : ReadCall) : Prop := call.thisRead = none

/-- A run of the loop. -/
structure Reading where
  calls : List ReadCall
  returned : Option ℕ
  buffer : List UInt8
deriving DecidableEq

/-- The run with one more call before it. -/
def Reading.after (call : ReadCall) (r : Reading) : Reading := { r with calls := call :: r.calls }

@[simp] theorem Reading.calls_after (call : ReadCall) (r : Reading) :
    (r.after call).calls = call :: r.calls := rfl

@[simp] theorem Reading.returned_after (call : ReadCall) (r : Reading) :
    (r.after call).returned = r.returned := rfl

@[simp] theorem Reading.buffer_after (call : ReadCall) (r : Reading) :
    (r.after call).buffer = r.buffer := rfl

/-- `readFromSocket` with its calls.
Source: `sockets.cpp`, `read_from_socket` -/
def readFromSocketCalls (d : Delivery) (stream : List UInt8) (readLen bytesRead : ℕ)
    (buf : List UInt8) : Reading :=
  if bytesRead < readLen then
    let count := readLen - bytesRead
    match d.read stream bytesRead count with
    | none => ⟨[⟨bytesRead, count, none⟩], none, buf⟩
    | some 0 => ⟨[⟨bytesRead, count, some 0⟩], some bytesRead, buf⟩
    | some (k + 1) =>
        (readFromSocketCalls d stream readLen (bytesRead + (k + 1))
          (overwrite buf bytesRead ((stream.drop bytesRead).take (k + 1)))).after
            ⟨bytesRead, count, some (k + 1)⟩
  else ⟨[], some bytesRead, buf⟩
termination_by readLen - bytesRead

/-- `FAILURE` as a `size_t`. -/
def failure : ℕ := 2 ^ 64 - 1

/-- The `size_t` that is returned. -/
def sizeT : Option ℕ → ℕ
  | none => failure
  | some n => n % 2 ^ 64

/-- `PTRDIFF_MAX`: no object has more bytes. -/
def ptrdiffMax : ℕ := 2 ^ 63 - 1

/-! ## One run -/

section reading

variable {d : Delivery} {stream buf : List UInt8} {n m : ℕ}

/-- The loop is the one of the server. -/
theorem readFromSocketCalls_eq : readFromSocket d stream n m buf =
    ((readFromSocketCalls d stream n m buf).returned,
      (readFromSocketCalls d stream n m buf).buffer) := by
  fun_induction readFromSocket d stream n m buf with
  | case1 m buf hlt hread =>
      rw [readFromSocketCalls, if_pos hlt]
      simp only [hread]
  | case2 m buf hlt hread =>
      rw [readFromSocketCalls, if_pos hlt]
      simp only [hread]
  | case3 m buf hlt k hread ih =>
      rw [readFromSocketCalls, if_pos hlt]
      simp only [hread, Reading.returned_after, Reading.buffer_after, ih]
  | case4 m buf hlt => rw [readFromSocketCalls, if_neg hlt]

/-- Every call stores into the part of the buffer that is still to be filled. -/
theorem within_of_mem {call : ReadCall}
    (hcall : call ∈ (readFromSocketCalls d stream n m buf).calls) : call.Within n := by
  fun_induction readFromSocketCalls d stream n m buf with
  | case1 m buf hlt count hread =>
      obtain rfl := List.mem_singleton.mp hcall
      exact (Nat.add_sub_cancel' hlt.le).le
  | case2 m buf hlt count hread =>
      obtain rfl := List.mem_singleton.mp hcall
      exact (Nat.add_sub_cancel' hlt.le).le
  | case3 m buf hlt count k hread ih =>
      rcases List.mem_cons.mp hcall with rfl | hrest
      · exact (Nat.add_sub_cancel' hlt.le).le
      · exact ih hrest
  | case4 => cases hcall

/-- Every call but the last reads a byte, and before the last one a byte is missing. -/
theorem length_calls_le : (readFromSocketCalls d stream n m buf).calls.length ≤ n - m := by
  fun_induction readFromSocketCalls d stream n m buf with
  | case1 m buf hlt count hread => exact Nat.sub_pos_of_lt hlt
  | case2 m buf hlt count hread => exact Nat.sub_pos_of_lt hlt
  | case3 m buf hlt count k hread ih =>
      rw [Reading.calls_after, List.length_cons]
      omega
  | case4 => exact Nat.zero_le _

/-- The loop fails with the call that does. -/
theorem returned_eq_none_iff : (readFromSocketCalls d stream n m buf).returned = none ↔
    ∃ call ∈ (readFromSocketCalls d stream n m buf).calls, call.Failed := by
  fun_induction readFromSocketCalls d stream n m buf with
  | case1 => simp [ReadCall.Failed]
  | case2 => simp [ReadCall.Failed]
  | case3 m buf hlt count k hread ih =>
      rw [Reading.returned_after, ih, Reading.calls_after]
      simp [ReadCall.Failed]
  | case4 => simp

/-- The loop of the server fails with the call that does. -/
theorem readFromSocket_eq_none_iff : (readFromSocket d stream n m buf).1 = none ↔
    ∃ call ∈ (readFromSocketCalls d stream n m buf).calls, call.Failed := by
  rw [readFromSocketCalls_eq, returned_eq_none_iff]

/-- No more is returned than was asked for. -/
theorem returned_le (hm : m ≤ n) {k : ℕ}
    (h : (readFromSocketCalls d stream n m buf).returned = some k) : k ≤ n := by
  fun_induction readFromSocketCalls d stream n m buf with
  | case1 => cases h
  | case2 m buf hlt count hread =>
      obtain rfl := Option.some.inj h
      exact hm
  | case3 m buf hlt count k' hread ih =>
      have hcount := (read_bounds (Nat.sub_pos_of_lt hlt) hread).1
      exact ih (by omega) h
  | case4 m buf hlt =>
      obtain rfl := Option.some.inj h
      exact hm

/-- Up to the size of an object, `FAILURE` is not a number of bytes. -/
theorem sizeT_eq_failure_iff {returned : Option ℕ}
    (hle : ∀ k, returned = some k → k ≤ ptrdiffMax) :
    sizeT returned = failure ↔ returned = none := by
  cases returned with
  | none => exact iff_of_true rfl rfl
  | some k =>
      have hk := hle k rfl
      simp only [sizeT, failure, ptrdiffMax, reduceCtorEq, iff_false] at hk ⊢
      omega

end reading

/-! ## The stream in pieces -/

/-- **What is read does not depend on the pieces.** The loop makes at most `readLen` calls, none of
them stores behind `buf + readLen`, and `FAILURE` is returned if and only if one of them fails.
Otherwise the start of the stream, as far as it goes, is returned in the buffer. -/
theorem readFromSocket_fragmentation (d : Delivery) (stream buf : List UInt8) (readLen : ℕ)
    (hfit : readLen ≤ buf.length) (hobject : buf.length ≤ ptrdiffMax) :
    let reading := readFromSocketCalls d stream readLen 0 buf
    let bytes := min readLen stream.length
    reading.calls.length ≤ readLen ∧
      (∀ call ∈ reading.calls, call.Within readLen) ∧
      (sizeT reading.returned = failure ↔ ∃ call ∈ reading.calls, call.Failed) ∧
      ((∀ call ∈ reading.calls, ¬ call.Failed) →
        sizeT reading.returned = bytes ∧
          reading.buffer.take bytes = stream.take bytes ∧
          reading.buffer.drop bytes = buf.drop bytes) := by
  intro reading bytes
  have hle : ∀ k, reading.returned = some k → k ≤ ptrdiffMax := fun k hk =>
    (returned_le (Nat.zero_le _) hk).trans (hfit.trans hobject)
  refine ⟨length_calls_le, fun call => within_of_mem,
    (sizeT_eq_failure_iff hle).trans returned_eq_none_iff, fun hcalls => ?_⟩
  have hret : (readFromSocket d stream readLen 0 buf).1 ≠ none := by
    intro hnone
    obtain ⟨call, hmem, hfailed⟩ := readFromSocket_eq_none_iff.mp hnone
    exact hcalls call hmem hfailed
  have heq := readFromSocket_eq hret (Nat.zero_le _) (Nat.zero_le _) hfit
  rw [readFromSocketCalls_eq, Nat.sub_zero, List.drop_zero, Nat.zero_add, overwrite_zero,
    List.length_take] at heq
  obtain ⟨hreturned, hbuffer⟩ := Prod.mk.inj heq
  have hbytes : (stream.take readLen).length = bytes := List.length_take
  refine ⟨?_, ?_, ?_⟩
  · rw [hreturned]
    refine Nat.mod_eq_of_lt ?_
    simp only [ptrdiffMax] at hobject
    omega
  · rw [hbuffer, ← hbytes, List.take_left, List.length_take, ← List.take_eq_take_min]
  · rw [hbuffer, ← hbytes, List.drop_left, hbytes]

/-- Three bytes, one at a time, into a buffer of four. -/
theorem readFromSocket_fragmentation_bytes :
    (readFromSocketCalls byteByByte [1, 2, 3] 4 0 [9, 9, 9, 9]).calls.length ≤ 4 ∧
      (readFromSocketCalls byteByByte [1, 2, 3] 4 0 [9, 9, 9, 9]).buffer.take 3 = [1, 2, 3] ∧
      (readFromSocketCalls byteByByte [1, 2, 3] 4 0 [9, 9, 9, 9]).buffer.drop 3 = [9] := by
  have hread := readFromSocket_fragmentation byteByByte [1, 2, 3] [9, 9, 9, 9] 4 le_rfl (by decide)
  have hcalls : ∀ call ∈ (readFromSocketCalls byteByByte [1, 2, 3] 4 0 [9, 9, 9, 9]).calls,
      ¬ call.Failed := by
    intro call hmem hfailed
    exact readFromSocket_ne_none byteByByte_sound
      (readFromSocket_eq_none_iff.mpr ⟨call, hmem, hfailed⟩)
  obtain ⟨hlength, -, -, hwhole⟩ := hread
  exact ⟨hlength, (hwhole hcalls).2⟩

end CoreOS.Sockets
