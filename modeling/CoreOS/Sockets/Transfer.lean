import CoreOS.Lib.Bytes

/-!
# A command on its way to the server

`ex5/sockets.cpp`: the client writes the command to the socket, the server reads it into a buffer
and hands the buffer to `system`.

* `Accepted len`: what `write` of `len` bytes may return; `Delivery`: what `read` may return, call
  by call. Both may be short.
* `clientMain`, `runClient`, `readFromSocket`, `handleRequest`: the code.
* `readFromSocket_eq`: **the loop of the server makes up for short reads.**
* `executes_iff`: **when the command that is executed is the one that was given**; nothing makes up
  for a short write, and the terminator needs a byte of the buffer. `buffer_full` is a command that
  leaves it none.
-/

namespace CoreOS.Sockets

open CoreOS.Lib

/-- `MAX_BUFFER`. -/
def maxBuffer : ℕ := 256

/-! ## The socket -/

/-- A successful return of `write` of `len` bytes. -/
structure Accepted (len : ℕ) where
  /-- How many bytes were accepted. -/
  count : ℕ
  le : count ≤ len
  pos : 0 < len → 0 < count

/-- The returns of `read` on a socket, one after the other: every call but the last starts behind
the one before it. -/
structure Delivery where
  /-- The return after `bytesRead` bytes, if `available` bytes fit into the buffer and are still to
  come; `none` is `FAILURE`. -/
  size : (bytesRead available : ℕ) → Option ℕ
  /-- Nothing but EOF makes it `0`. -/
  bounds : ∀ {bytesRead available k}, size bytesRead available = some k →
    k ≤ available ∧ (0 < available → 1 ≤ k)

/-- No `read` fails. -/
def Delivery.Sound (d : Delivery) : Prop := ∀ bytesRead available, d.size bytesRead available ≠ none

/-- `read` of `count` bytes after the first `bytesRead` bytes of a stream that ends with EOF. -/
def Delivery.read (d : Delivery) (stream : List UInt8) (bytesRead count : ℕ) : Option ℕ :=
  d.size bytesRead (min count (stream.length - bytesRead))

/-! ## The code -/

/-- Sends a command; the bytes that get to the server, or `none` for an error exit.
Source: `sockets.cpp`, `run_client` -/
def runClient (command : List UInt8) (len : ℕ) (written : Option (Accepted len)) :
    Option (List UInt8) :=
  written.map fun accepted => command.take accepted.count

/-- The client with the terminal command.
Source: `sockets.cpp`, `main` -/
def clientMain (terminalCommand : List UInt8)
    (written : Option (Accepted terminalCommand.length)) : Option (List UInt8) :=
  runClient terminalCommand terminalCommand.length written

/-- The loop that reads into a buffer, from `bytesRead` on: the return value, or `none` for
`FAILURE`, and the buffer.
Source: `sockets.cpp`, `read_from_socket` -/
def readFromSocket (d : Delivery) (stream : List UInt8) (readLen bytesRead : ℕ)
    (buf : List UInt8) : Option ℕ × List UInt8 :=
  if bytesRead < readLen then
    match d.read stream bytesRead (readLen - bytesRead) with
    | none => (none, buf)
    | some 0 => (some bytesRead, buf)
    | some (k + 1) =>
        readFromSocket d stream readLen (bytesRead + (k + 1))
          (overwrite buf bytesRead ((stream.drop bytesRead).take (k + 1)))
  else (some bytesRead, buf)
termination_by readLen - bytesRead

/-- The buffer that is passed to `system`, or `none` for `FAILURE`.
Source: `sockets.cpp`, `handle_request` -/
def handleRequest (d : Delivery) (stream : List UInt8) : Option (List UInt8) :=
  match readFromSocket d stream maxBuffer 0 (List.replicate maxBuffer 0) with
  | (none, _) => none
  | (some _, buffer) => some buffer

/-! ## Reading -/

section reading

variable {d : Delivery} {stream buf : List UInt8} {n m : ℕ}

/-- Before EOF something is read, and never more than there is. -/
theorem read_bounds {k count : ℕ} (hcount : 0 < count) (h : d.read stream m count = some k) :
    k ≤ count ∧ k ≤ stream.length - m ∧ (m < stream.length → 1 ≤ k) := by
  have hbounds := d.bounds h
  omega

/-- **The loop makes up for short reads**: unless a `read` fails, it fills the buffer with what was
sent, as far as both go. -/
theorem readFromSocket_eq (hret : (readFromSocket d stream n m buf).1 ≠ none)
    (hm : m ≤ stream.length) (hbuf : m ≤ buf.length) (hn : n ≤ buf.length) :
    readFromSocket d stream n m buf = (some (m + ((stream.drop m).take (n - m)).length),
      overwrite buf m ((stream.drop m).take (n - m))) := by
  fun_induction readFromSocket d stream n m buf with
  | case1 m buf hlt hread => exact absurd rfl hret
  | case2 m buf hlt hread =>
      have heof : stream.length ≤ m := by
        by_contra hmore
        have hpos := (read_bounds (Nat.sub_pos_of_lt hlt) hread).2.2 (not_le.mp hmore)
        omega
      rw [List.drop_eq_nil_of_le heof]
      simp
  | case3 m buf hlt k hread ih =>
      obtain ⟨hcount, havail, -⟩ := read_bounds (Nat.sub_pos_of_lt hlt) hread
      have hchunk : ((stream.drop m).take (k + 1)).length = k + 1 := by
        rw [List.length_take, List.length_drop]
        omega
      have hjoin : (stream.drop m).take (k + 1) ++
          (stream.drop (m + (k + 1))).take (n - (m + (k + 1))) = (stream.drop m).take (n - m) := by
        rw [← List.drop_drop, ← List.take_add, show k + 1 + (n - (m + (k + 1))) = n - m by omega]
      have hlen : (overwrite buf m ((stream.drop m).take (k + 1))).length = buf.length :=
        length_overwrite (by omega)
      rw [ih hret (by omega) (by omega) (by omega), ← hjoin, ← overwrite_overwrite hbuf,
        List.length_append, hchunk, Nat.add_assoc]
  | case4 m buf hlt =>
      rw [show n - m = 0 by omega]
      simp

/-- A loop whose calls all succeed does. -/
theorem readFromSocket_ne_none (hd : d.Sound) : (readFromSocket d stream n m buf).1 ≠ none := by
  fun_induction readFromSocket d stream n m buf with
  | case1 m buf hlt hread => exact absurd hread (hd _ _)
  | case2 => exact Option.some_ne_none _
  | case3 m buf hlt k hread ih => exact ih
  | case4 => exact Option.some_ne_none _

/-- What is passed to `system`: what was sent, and zeros behind it. -/
theorem handleRequest_eq (hd : d.Sound) : handleRequest d stream =
    some (stream.take maxBuffer ++ List.replicate (maxBuffer - stream.length) 0) := by
  rw [handleRequest, readFromSocket_eq (readFromSocket_ne_none hd) (Nat.zero_le _) (Nat.zero_le _)
    (by simp)]
  simp only [Nat.sub_zero, List.drop_zero, overwrite_zero, List.drop_replicate, List.length_take]
  congr 3
  omega

end reading

/-! ## The command that is executed -/

section command

variable {command stream : List UInt8} {d : Delivery}

/-- The string that `system` takes from the buffer is what was sent, if it leaves room for a
terminator; otherwise the buffer holds none. -/
theorem handleRequest_string (hd : d.Sound) (hnul : 0 ∉ stream) :
    (handleRequest d stream).bind (cString 0) =
      if stream.length < maxBuffer then some stream else none := by
  rw [handleRequest_eq hd, Option.bind_some]
  split_ifs with hlt
  · obtain ⟨k, hk⟩ := Nat.exists_eq_add_of_lt hlt
    rw [List.take_of_length_le hlt.le, show maxBuffer - stream.length = k + 1 by omega,
      List.replicate_succ]
    exact cString_of_terminated hnul
  · rw [Nat.sub_eq_zero_of_le (not_lt.mp hlt), List.replicate_zero, List.append_nil]
    exact cString_of_full fun hmem => hnul (List.mem_of_mem_take hmem)

/-- The server executes the command: the buffer that is passed to `system` holds a terminator, and
the string up to the first one is the command. -/
def Executes (command : List UInt8) (accepted : Accepted command.length) (d : Delivery) : Prop :=
  ∃ stream buffer, clientMain command (some accepted) = some stream ∧
    handleRequest d stream = some buffer ∧ buffer.length = maxBuffer ∧
      cString 0 buffer = some command

/-- **When the command is executed**: if `write` accepts it whole and it is shorter than the
buffer. -/
theorem executes_iff (hnul : 0 ∉ command) (accepted : Accepted command.length) (hd : d.Sound) :
    Executes command accepted d ↔
      accepted.count = command.length ∧ command.length < maxBuffer := by
  have hstring : (handleRequest d (command.take accepted.count)).bind (cString 0) = _ :=
    handleRequest_string hd fun hmem => hnul (List.mem_of_mem_take hmem)
  have hcount : (command.take accepted.count).length = accepted.count := by
    rw [List.length_take, min_eq_left accepted.le]
  constructor
  · rintro ⟨stream, buffer, hsent, hbuffer, -, hcommand⟩
    obtain rfl : command.take accepted.count = stream := Option.some.inj hsent
    rw [hbuffer, Option.bind_some, hcommand] at hstring
    split_ifs at hstring with hlt
    have hwhole : command = command.take accepted.count := Option.some.inj hstring
    rw [← hwhole] at hcount hlt
    exact ⟨hcount.symm, hlt⟩
  · rintro ⟨hwhole, hlt⟩
    have htake : command.take accepted.count = command := by
      rw [hwhole, List.take_length]
    rw [htake, if_pos hlt] at hstring
    obtain ⟨buffer, hbuffer, hcommand⟩ := Option.bind_eq_some_iff.mp hstring
    refine ⟨command, buffer, congrArg some htake, hbuffer, ?_, hcommand⟩
    rw [handleRequest_eq hd] at hbuffer
    obtain rfl := Option.some.inj hbuffer
    rw [List.length_append, List.length_take, List.length_replicate]
    omega

end command

/-! ### Two commands -/

/-- A socket that hands out one byte at a time. -/
def byteByByte : Delivery where
  size _ available := some (min 1 available)
  bounds h := by
    cases h
    omega

theorem byteByByte_sound : byteByByte.Sound := fun _ _ => nofun

/-- A `write` that accepts everything. -/
def whole (len : ℕ) : Accepted len := ⟨len, le_rfl, id⟩

/-- `ls` is executed. -/
theorem executes_iff_ls : Executes [108, 115] (whole 2) byteByByte := by
  have hnul : (0 : UInt8) ∉ [108, 115] := by decide
  exact (executes_iff hnul (whole 2) byteByByte_sound).mpr ⟨rfl, by decide⟩

/-- A command of `MAX_BUFFER` bytes leaves no terminator in the buffer, although it is accepted
whole. -/
theorem buffer_full :
    ¬ ∀ (command : List UInt8) (accepted : Accepted command.length) (d : Delivery),
      0 ∉ command → d.Sound → Executes command accepted d := by
  intro hall
  have hnul : (0 : UInt8) ∉ List.replicate maxBuffer (97 : UInt8) := by
    rw [List.mem_replicate]
    rintro ⟨-, h⟩
    exact absurd h (by decide)
  obtain ⟨stream, buffer, hsent, hbuffer, -, hcommand⟩ :=
    hall (List.replicate maxBuffer 97) (whole _) byteByByte hnul byteByByte_sound
  obtain rfl : (List.replicate maxBuffer 97).take _ = stream := Option.some.inj hsent
  rw [whole, List.take_length] at hbuffer
  have hstring := handleRequest_string byteByByte_sound hnul
  rw [hbuffer, Option.bind_some, hcommand, List.length_replicate, if_neg (lt_irrefl _)] at hstring
  cases hstring

end CoreOS.Sockets
