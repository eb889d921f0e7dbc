import Mathlib.Algebra.BigOperators.Group.List.Basic
import XGameRuntime.Ipc.Transport

/-! # The socket of the host's half

The loops around `send` and `recv` in `unixlib/src/lib.rs`. A call may move less than it is asked
for, and under Wine a signal interrupts it as a matter of course.
-/

namespace XGameRuntime.Ipc.Socket
set_option autoImplicit false

def EINTR : ℕ := 4
def EAGAIN : ℕ := 11

/-- What a call returns, with `errno` after it, and what it has put into the buffer. -/
structure Return where
  ret : ℤ
  errno : ℕ := 0
  bytes : List UInt8 := []

/-- The host's answer to the `i`-th call, on what is left of the buffer. -/
abbrev Host := ℕ → List UInt8 → Return

/-- What a loop has done: its calls, the bytes that they have moved, and its result. -/
structure Io where
  calls : List Return := []
  moved : List UInt8 := []
  result : Except NtStatus Unit

def Io.after (call : Return) (moved : List UInt8) (io : Io) : Io :=
  { io with calls := call :: io.calls, moved := moved ++ io.moved }

/-- The status for an `errno`; after `EINTR` the loop continues. -/
def errnoStatus (errno : ℕ) : Option NtStatus :=
  if errno = EINTR then none
  else if errno = EAGAIN then some STATUS_IO_TIMEOUT
  else some STATUS_UNEXPECTED_IO_ERROR

/-- `Socket::write_all`, from the `i`-th call on. -/
def writeAll (send : Host) : ℕ → ℕ → List UInt8 → Option Io
  | 0, _, _ => none
  | fuel + 1, i, buf =>
      if buf = [] then some { result := .ok () }
      else
        let written := send i buf
        if written.ret > 0 then
          (writeAll send fuel (i + 1) (buf.drop written.ret.toNat)).map
            (Io.after written (buf.take written.ret.toNat))
        else
          match errnoStatus written.errno with
          | none => (writeAll send fuel (i + 1) buf).map (Io.after written [])
          | some status => some { calls := [written], result := .error status }

/-- `Socket::read_exact`, from the `i`-th call on, with what is in the buffer after it. -/
def readExact (recv : Host) : ℕ → ℕ → List UInt8 → Option (Io × List UInt8)
  | 0, _, _ => none
  | fuel + 1, i, buf =>
      if buf = [] then some ({ result := .ok () }, [])
      else
        let read := recv i buf
        if read.ret > 0 then
          (readExact recv fuel (i + 1) (buf.drop read.ret.toNat)).map fun rest =>
            (rest.1.after read read.bytes, read.bytes ++ rest.2)
        else if read.ret = 0 then
          some ({ calls := [read], result := .error STATUS_UNEXPECTED_IO_ERROR }, buf)
        else
          match errnoStatus read.errno with
          | none => (readExact recv fuel (i + 1) buf).map fun rest => (rest.1.after read [], rest.2)
          | some status => some ({ calls := [read], result := .error status }, buf)

/-! ## The host's side of the calls -/

def Return.Interrupted (call : Return) : Prop := call.ret < 0 ∧ call.errno = EINTR

/-- The status that a call alone asks for. -/
def Return.failure (call : Return) : Option NtStatus :=
  if 0 < call.ret then none
  else if call.ret = 0 then some STATUS_UNEXPECTED_IO_ERROR
  else errnoStatus call.errno

/-- Some of what is given is taken, or the call fails; the interruptions come to an end. -/
structure Sends (send : Host) : Prop where
  answers : ∀ i buf, buf ≠ [] →
    0 < (send i buf).ret ∧ (send i buf).ret ≤ buf.length ∨ (send i buf).ret = -1
  recovers : ∀ i buf, buf ≠ [] → ∃ j, i ≤ j ∧ ¬(send j buf).Interrupted

/-- Some of what is asked for comes, the stream ends, or the call fails. -/
structure Receives (recv : Host) : Prop where
  answers : ∀ i buf, buf ≠ [] →
    (recv i buf).ret = (recv i buf).bytes.length ∧ (recv i buf).bytes.length ≤ buf.length ∨
      (recv i buf).ret = -1
  recovers : ∀ i buf, buf ≠ [] → ∃ j, i ≤ j ∧ ¬(recv j buf).Interrupted

/-! ## Exactness -/

/-- The bytes that calls have moved. -/
def count (calls : List Return) : ℕ := (calls.map (fun call => call.ret.toNat)).sum

/-- The calls are those that the host has answered from the `i`-th on: each on what the ones before
it have left of the buffer, while something is left and none has failed. -/
def Answers (host : Host) : ℕ → List UInt8 → List Return → Prop
  | _, _, [] => True
  | i, buf, call :: calls =>
      buf ≠ [] ∧ call = host i buf ∧ (calls ≠ [] → call.failure = none) ∧
        Answers host (i + 1) (buf.drop call.ret.toNat) calls

/-- A loop over a buffer, from the `i`-th call on, has moved all of it, or it has stopped at the
first failure. -/
structure Io.Exact (host : Host) (i : ℕ) (buf : List UInt8) (io : Io) : Prop where
  answered : Answers host i buf io.calls
  moved : io.moved.length = count io.calls
  within : io.moved.length ≤ buf.length
  whole : io.result = .ok () ↔ io.moved.length = buf.length
  first : io.result = (io.calls.findSome? Return.failure).elim (.ok ()) .error

section Exact

variable {host : Host} {i : ℕ} {buf : List UInt8}

theorem Io.Exact.nothing : Io.Exact host i [] { result := .ok () } where
  answered := trivial
  moved := rfl
  within := Nat.le_refl 0
  whole := ⟨fun _ => rfl, fun _ => rfl⟩
  first := rfl

theorem Io.Exact.failed {status : NtStatus} (hne : buf ≠ []) (hret : (host i buf).ret ≤ 0)
    (hstatus : (host i buf).failure = some status) :
    Io.Exact host i buf { calls := [host i buf], result := .error status } where
  answered := ⟨hne, rfl, fun h => absurd rfl h, trivial⟩
  moved := by
    have hcount : count [host i buf] = (host i buf).ret.toNat := Nat.add_zero _
    rw [hcount]
    exact (Int.toNat_of_nonpos hret).symm
  within := Nat.zero_le _
  whole := by
    refine ⟨fun h => (nomatch h), fun h => ?_⟩
    exact absurd (List.length_eq_zero_iff.mp h.symm) hne
  first := by
    rw [List.findSome?_cons, hstatus]
    rfl

theorem Io.Exact.after {io : Io} {moved : List UInt8} (hne : buf ≠ [])
    (hcall : (host i buf).failure = none) (hmoved : moved.length = (host i buf).ret.toNat)
    (hle : moved.length ≤ buf.length)
    (h : io.Exact host (i + 1) (buf.drop (host i buf).ret.toNat)) :
    (io.after (host i buf) moved).Exact host i buf := by
  have hlength : (moved ++ io.moved).length = moved.length + io.moved.length := List.length_append
  have hdrop : (buf.drop (host i buf).ret.toNat).length = buf.length - moved.length := by
    rw [List.length_drop, hmoved]
  have hwithin := h.within
  rw [hdrop] at hwithin
  refine ⟨⟨hne, rfl, fun _ => hcall, h.answered⟩, ?_, ?_, ?_, ?_⟩
  · have hcount : count (host i buf :: io.calls) = (host i buf).ret.toNat + count io.calls :=
      List.sum_cons
    have hio := h.moved
    show (moved ++ io.moved).length = count (host i buf :: io.calls)
    omega
  · show (moved ++ io.moved).length ≤ buf.length
    omega
  · show io.result = .ok () ↔ (moved ++ io.moved).length = buf.length
    rw [h.whole, hdrop]
    omega
  · show io.result = ((host i buf :: io.calls).findSome? Return.failure).elim (.ok ()) .error
    rw [List.findSome?_cons, hcall]
    exact h.first

/-- A loop whose interruptions come to an end: each other call ends it or leaves less to do. -/
theorem loop_induction {P : ℕ → List UInt8 → Prop}
    (recovers : ∀ i buf, buf ≠ [] → ∃ j, i ≤ j ∧ ¬(host j buf).Interrupted)
    (done : ∀ i, P i [])
    (answered : ∀ i buf, buf ≠ [] → ¬(host i buf).Interrupted →
      (∀ n, 0 < n → P (i + 1) (buf.drop n)) → P i buf)
    (interrupted : ∀ i buf, buf ≠ [] → (host i buf).Interrupted → P (i + 1) buf → P i buf)
    (i : ℕ) (buf : List UInt8) : P i buf := by
  induction hlen : buf.length using Nat.strongRecOn generalizing i buf with
  | _ len ih =>
    by_cases hne : buf = []
    · rw [hne]
      exact done i
    · have hpos := List.length_pos_iff.mpr hne
      have hless : ∀ i n, 0 < n → P (i + 1) (buf.drop n) := fun i n hn =>
        ih (buf.drop n).length (by rw [List.length_drop]; omega) (i + 1) (buf.drop n) rfl
      obtain ⟨j, hj, hcall⟩ := recovers i buf hne
      obtain ⟨wait, rfl⟩ := Nat.exists_eq_add_of_le hj
      clear hj
      induction wait generalizing i with
      | zero => exact answered i buf hne hcall (hless i)
      | succ wait ihwait =>
        by_cases hnow : (host i buf).Interrupted
        · have hshift : i + (wait + 1) = i + 1 + wait := by omega
          rw [hshift] at hcall
          exact interrupted i buf hne hnow (ihwait (i + 1) hcall)
        · exact answered i buf hne hnow (hless i)

end Exact

theorem errnoStatus_none {errno : ℕ} (h : errnoStatus errno = none) : errno = EINTR := by
  unfold errnoStatus at h
  split at h
  · assumption
  · split at h <;> cases h

theorem failure_of_neg {call : Return} (h : call.ret = -1) :
    call.failure = errnoStatus call.errno := by
  rw [Return.failure, if_neg (by omega), if_neg (by omega)]

theorem failure_of_interrupted {call : Return} (h : call.Interrupted) : call.failure = none := by
  obtain ⟨hret, herrno⟩ := h
  rw [Return.failure, if_neg (by omega), if_neg (by omega), herrno]
  rfl

/-- What `write_all` comes to from the `i`-th call on, whatever fuel is left over. -/
def Writes (send : Host) (i : ℕ) (buf : List UInt8) : Prop :=
  ∃ fuel io, (∀ more, writeAll send (fuel + more) i buf = some io) ∧
    io.Exact send i buf ∧ io.moved <+: buf

theorem writes {send : Host} (hsend : Sends send) (i : ℕ) (buf : List UInt8) :
    Writes send i buf := by
  revert i buf
  refine loop_induction hsend.recovers ?_ ?_ ?_
  · intro i
    refine ⟨1, { result := .ok () }, fun more => ?_, .nothing, List.nil_prefix⟩
    rw [Nat.add_comm, writeAll, if_pos rfl]
  · intro i buf hne hcall ih
    obtain ⟨hpos, hle⟩ | hret := hsend.answers i buf hne
    · have htoNat : 0 < (send i buf).ret.toNat := by omega
      have htake : (buf.take (send i buf).ret.toNat).length = (send i buf).ret.toNat := by
        rw [List.length_take]
        omega
      obtain ⟨fuel, io, hio, hexact, hprefix⟩ := ih _ htoNat
      refine ⟨fuel + 1, io.after (send i buf) (buf.take (send i buf).ret.toNat), fun more => ?_,
        hexact.after hne (if_pos hpos) htake (by rw [htake]; omega), ?_⟩
      · rw [Nat.add_right_comm, writeAll, if_neg hne]
        dsimp only
        rw [if_pos hpos, hio]
        rfl
      · obtain ⟨rest, hrest⟩ := hprefix
        refine ⟨rest, ?_⟩
        show buf.take (send i buf).ret.toNat ++ io.moved ++ rest = buf
        rw [List.append_assoc, hrest, List.take_append_drop]
    · cases hstatus : errnoStatus (send i buf).errno with
      | none => exact absurd ⟨by omega, errnoStatus_none hstatus⟩ hcall
      | some status =>
        refine ⟨1, { calls := [send i buf], result := .error status }, fun more => ?_,
          .failed hne (by omega) ((failure_of_neg hret).trans hstatus), List.nil_prefix⟩
        rw [Nat.add_comm, writeAll, if_neg hne]
        dsimp only
        rw [if_neg (by omega), hstatus]
  · intro i buf hne hcall ih
    obtain ⟨fuel, io, hio, hexact, hprefix⟩ := ih
    have hret := hcall.1
    have hzero : (send i buf).ret.toNat = 0 := Int.toNat_of_nonpos (by omega)
    refine ⟨fuel + 1, io.after (send i buf) [], fun more => ?_, ?_, hprefix⟩
    · have hstatus : errnoStatus (send i buf).errno = none := by
        rw [hcall.2]
        rfl
      rw [Nat.add_right_comm, writeAll, if_neg hne]
      dsimp only
      rw [if_neg (by omega), hstatus]
      simp only [hio]
      rfl
    · exact .after hne (failure_of_interrupted hcall) hzero.symm (Nat.zero_le _)
        (by rwa [hzero, List.drop_zero])

/-- What a call has given. -/
def Return.given (call : Return) : List UInt8 := if 0 < call.ret then call.bytes else []

/-- What `read_exact` comes to from the `i`-th call on. -/
def Reads (recv : Host) (i : ℕ) (buf : List UInt8) : Prop :=
  ∃ fuel io out, (∀ more, readExact recv (fuel + more) i buf = some (io, out)) ∧
    io.Exact recv i buf ∧ io.moved = io.calls.flatMap Return.given ∧
    out = io.moved ++ buf.drop io.moved.length

theorem Reads.failed {recv : Host} {i : ℕ} {buf : List UInt8} {status : NtStatus}
    (hne : buf ≠ []) (hret : (recv i buf).ret ≤ 0) (hstatus : (recv i buf).failure = some status)
    (hrun : ∀ more, readExact recv (1 + more) i buf =
      some ({ calls := [recv i buf], result := .error status }, buf)) : Reads recv i buf := by
  refine ⟨1, _, buf, hrun, .failed hne hret hstatus, ?_, rfl⟩
  rw [List.flatMap_singleton, Return.given, if_neg (by omega)]

theorem reads {recv : Host} (hrecv : Receives recv) (i : ℕ) (buf : List UInt8) :
    Reads recv i buf := by
  revert i buf
  refine loop_induction hrecv.recovers ?_ ?_ ?_
  · intro i
    refine ⟨1, { result := .ok () }, [], fun more => ?_, .nothing, rfl, rfl⟩
    rw [Nat.add_comm, readExact, if_pos rfl]
  · intro i buf hne hcall ih
    obtain ⟨hret, hle⟩ | hret := hrecv.answers i buf hne
    · by_cases hend : (recv i buf).bytes = []
      · -- the other side has closed the stream
        rw [hend, List.length_nil] at hret
        have hzero : (recv i buf).ret = 0 := hret
        have hstatus : (recv i buf).failure = some STATUS_UNEXPECTED_IO_ERROR := by
          rw [Return.failure, if_neg (by omega), if_pos hzero]
        refine .failed hne (Int.le_of_eq hzero) hstatus (fun more => ?_)
        rw [Nat.add_comm, readExact, if_neg hne]
        dsimp only
        rw [if_neg (by omega), if_pos hzero]
      · have hpos : 0 < (recv i buf).bytes.length := List.length_pos_iff.mpr hend
        have hmore : 0 < (recv i buf).ret := by omega
        have htoNat : (recv i buf).ret.toNat = (recv i buf).bytes.length := by rw [hret]; rfl
        obtain ⟨fuel, io, out, hio, hexact, hmoved, hout⟩ := ih (recv i buf).ret.toNat (by omega)
        refine ⟨fuel + 1, io.after (recv i buf) (recv i buf).bytes, (recv i buf).bytes ++ out,
          fun more => ?_, hexact.after hne (if_pos hmore) htoNat.symm hle, ?_, ?_⟩
        · rw [Nat.add_right_comm, readExact, if_neg hne]
          dsimp only
          rw [if_pos hmore, hio]
          rfl
        · show (recv i buf).bytes ++ io.moved = (recv i buf :: io.calls).flatMap Return.given
          rw [List.flatMap_cons, Return.given, if_pos hmore, hmoved]
        · show (recv i buf).bytes ++ out =
            (recv i buf).bytes ++ io.moved ++ buf.drop ((recv i buf).bytes ++ io.moved).length
          rw [hout, List.append_assoc, List.length_append, List.drop_drop, htoNat]
    · cases hstatus : errnoStatus (recv i buf).errno with
      | none => exact absurd ⟨by omega, errnoStatus_none hstatus⟩ hcall
      | some status =>
        refine .failed hne (by omega) ((failure_of_neg hret).trans hstatus) (fun more => ?_)
        rw [Nat.add_comm, readExact, if_neg hne]
        dsimp only
        rw [if_neg (by omega), if_neg (by omega), hstatus]
  · intro i buf hne hcall ih
    obtain ⟨fuel, io, out, hio, hexact, hmoved, hout⟩ := ih
    have hret := hcall.1
    have hzero : (recv i buf).ret.toNat = 0 := Int.toNat_of_nonpos (by omega)
    refine ⟨fuel + 1, io.after (recv i buf) [], out, fun more => ?_, ?_, ?_, hout⟩
    · have hstatus : errnoStatus (recv i buf).errno = none := by
        rw [hcall.2]
        rfl
      rw [Nat.add_right_comm, readExact, if_neg hne]
      dsimp only
      rw [if_neg (by omega), if_neg (by omega), hstatus]
      simp only [hio]
      rfl
    · exact .after hne (failure_of_interrupted hcall) hzero.symm (Nat.zero_le _)
        (by rwa [hzero, List.drop_zero])
    · show io.moved = (recv i buf :: io.calls).flatMap Return.given
      rw [List.flatMap_cons, Return.given, if_neg (by omega), hmoved]
      rfl

/-- Both loops end whatever the host does, with all bytes moved or at the first failure, and what
is moved is the front of the buffer. -/
theorem socket_io_exact {send recv : Host} (hsend : Sends send) (hrecv : Receives recv)
    (buf : List UInt8) :
    (∃ fuel io, (∀ more, writeAll send (fuel + more) 0 buf = some io) ∧
      io.Exact send 0 buf ∧ io.moved <+: buf) ∧
    ∃ fuel io out, (∀ more, readExact recv (fuel + more) 0 buf = some (io, out)) ∧
      io.Exact recv 0 buf ∧ io.moved = io.calls.flatMap Return.given ∧
      out = io.moved ++ buf.drop io.moved.length :=
  ⟨writes hsend 0 buf, reads hrecv 0 buf⟩

/-- A host that moves one byte at a time, and is interrupted before each. -/
def bytewise : Host := fun i _ =>
  if i % 2 = 0 then { ret := -1, errno := EINTR } else { ret := 1, bytes := [7] }

theorem bytewise_recovers (i : ℕ) (buf : List UInt8) :
    ∃ j, i ≤ j ∧ ¬(bytewise j buf).Interrupted := by
  refine ⟨2 * i + 1, by omega, fun h => ?_⟩
  rw [bytewise, if_neg (by omega)] at h
  exact absurd h.1 (by decide)

theorem bytewise_sends : Sends bytewise where
  answers i buf hne := by
    by_cases hi : i % 2 = 0
    · exact .inr (by rw [bytewise, if_pos hi])
    · refine .inl ?_
      rw [bytewise, if_neg hi]
      exact ⟨by decide, Int.ofNat_le.mpr (List.length_pos_iff.mpr hne)⟩
  recovers i buf _ := bytewise_recovers i buf

theorem bytewise_receives : Receives bytewise where
  answers i buf hne := by
    by_cases hi : i % 2 = 0
    · exact .inr (by rw [bytewise, if_pos hi])
    · refine .inl ?_
      rw [bytewise, if_neg hi]
      exact ⟨rfl, List.length_pos_iff.mpr hne⟩
  recovers i buf _ := bytewise_recovers i buf

theorem socket_io_exact_bytewise :
    (∃ fuel io, (∀ more, writeAll bytewise (fuel + more) 0 [1, 2] = some io) ∧
      io.Exact bytewise 0 [1, 2] ∧ io.moved <+: [1, 2]) ∧
    ∃ fuel io out, (∀ more, readExact bytewise (fuel + more) 0 [1, 2] = some (io, out)) ∧
      io.Exact bytewise 0 [1, 2] ∧ io.moved = io.calls.flatMap Return.given ∧
      out = io.moved ++ [1, 2].drop io.moved.length :=
  socket_io_exact bytewise_sends bytewise_receives [1, 2]

/-! ## As a stream

What `exchange` does with its socket is what the transport's model does with a stream.
-/

/-- A call of `send`, as the stream sees it. -/
def Return.departure (call : Return) : Bytes.Departure :=
  if 0 < call.ret then .taken (call.ret.toNat - 1)
  else if call.errno = EINTR then .interrupted
  else if call.errno = EAGAIN then .timeout
  else .lost

/-- A call of `recv`, as the stream sees it; after its end there is nothing. -/
def Return.arrival (call : Return) : Option Bytes.Arrival :=
  if 0 < call.ret then some (.piece call.bytes)
  else if call.ret = 0 then none
  else if call.errno = EINTR then some .interrupted
  else if call.errno = EAGAIN then some .timeout
  else some .lost

theorem errnoStatus_cases (errno : ℕ) :
    errno = EINTR ∧ errnoStatus errno = none ∨
      errno ≠ EINTR ∧ errno = EAGAIN ∧ errnoStatus errno = some STATUS_IO_TIMEOUT ∨
      errno ≠ EINTR ∧ errno ≠ EAGAIN ∧ errnoStatus errno = some STATUS_UNEXPECTED_IO_ERROR := by
  by_cases hintr : errno = EINTR
  · exact .inl ⟨hintr, if_pos hintr⟩
  · by_cases hagain : errno = EAGAIN
    · exact .inr (.inl ⟨hintr, hagain, by rw [errnoStatus, if_neg hintr, if_pos hagain]⟩)
    · exact .inr (.inr ⟨hintr, hagain, by rw [errnoStatus, if_neg hintr, if_neg hagain]⟩)

theorem writeAll_departures {send : Host} {fuel i : ℕ} {buf : List UInt8} {io : Io}
    (h : writeAll send fuel i buf = some io) :
    (Bytes.writeAll buf (io.calls.map Return.departure)).1.mapError ioStatus = io.result ∧
      (Bytes.writeAll buf (io.calls.map Return.departure)).2 = io.moved := by
  induction fuel generalizing i buf io with
  | zero => cases h
  | succ fuel ih =>
    rw [writeAll] at h
    cases buf with
    | nil =>
      cases h
      exact ⟨rfl, rfl⟩
    | cons b buf =>
      rw [if_neg (List.cons_ne_nil b buf)] at h
      dsimp only at h
      split at h
      · rename_i hpos
        obtain ⟨rest, hrest, rfl⟩ := Option.map_eq_some_iff.mp h
        obtain ⟨hresult, hmoved⟩ := ih hrest
        have hcount : (send i (b :: buf)).ret.toNat - 1 + 1 =
            (send i (b :: buf)).ret.toNat := by omega
        have hcall : (send i (b :: buf)).departure =
            .taken ((send i (b :: buf)).ret.toNat - 1) := if_pos hpos
        simp only [Io.after, List.map_cons, hcall, Bytes.writeAll, hcount]
        exact ⟨hresult, by rw [hmoved]⟩
      · rename_i hneg
        obtain ⟨herrno, hstatus⟩ | ⟨hintr, herrno, hstatus⟩ | ⟨hintr, hagain, hstatus⟩ :=
          errnoStatus_cases (send i (b :: buf)).errno
        · rw [hstatus] at h
          obtain ⟨rest, hrest, rfl⟩ := Option.map_eq_some_iff.mp h
          have hcall : (send i (b :: buf)).departure = .interrupted := by
            rw [Return.departure, if_neg hneg, if_pos herrno]
          simp only [Io.after, List.map_cons, hcall, Bytes.writeAll]
          exact ih hrest
        · rw [hstatus] at h
          cases h
          have hcall : (send i (b :: buf)).departure = .timeout := by
            rw [Return.departure, if_neg hneg, if_neg hintr, if_pos herrno]
          simp only [List.map_cons, hcall, Bytes.writeAll]
          exact ⟨rfl, trivial⟩
        · rw [hstatus] at h
          cases h
          have hcall : (send i (b :: buf)).departure = .lost := by
            rw [Return.departure, if_neg hneg, if_neg hintr, if_neg hagain]
          simp only [List.map_cons, hcall, Bytes.writeAll]
          exact ⟨rfl, trivial⟩

theorem readExact_arrivals {recv : Host} (hrecv : Receives recv) {fuel i : ℕ}
    {buf out : List UInt8} {io : Io} (h : readExact recv fuel i buf = some (io, out)) :
    (Bytes.readExact buf.length (io.calls.filterMap Return.arrival)).1.mapError ioStatus =
      io.result.map (fun _ => out) ∧
    (Bytes.readExact buf.length (io.calls.filterMap Return.arrival)).2 = [] := by
  induction fuel generalizing i buf io out with
  | zero => cases h
  | succ fuel ih =>
    rw [readExact] at h
    cases buf with
    | nil =>
      cases h
      exact ⟨rfl, rfl⟩
    | cons b buf =>
      rw [if_neg (List.cons_ne_nil b buf)] at h
      dsimp only at h
      split at h
      · rename_i hpos
        obtain ⟨⟨rest, tail⟩, hrest, heq⟩ := Option.map_eq_some_iff.mp h
        cases heq
        obtain ⟨hresult, hleft⟩ := ih hrest
        obtain ⟨hret, hle⟩ | hret := hrecv.answers i (b :: buf) (List.cons_ne_nil b buf)
        · have hcall : (recv i (b :: buf)).arrival = some (.piece (recv i (b :: buf)).bytes) :=
            if_pos hpos
          have htoNat : (recv i (b :: buf)).ret.toNat = (recv i (b :: buf)).bytes.length := by
            rw [hret]
            rfl
          rw [List.length_drop, htoNat] at hresult hleft
          rw [Io.after, List.filterMap_cons, hcall]
          dsimp only
          rw [List.length_cons] at hle hresult hleft ⊢
          rw [Bytes.readExact, if_pos hle]
          rcases hread : Bytes.readExact (buf.length + 1 - (recv i (b :: buf)).bytes.length)
            (rest.calls.filterMap Return.arrival) with ⟨e | bytes, left⟩
          · rw [hread] at hresult hleft
            refine ⟨?_, hleft⟩
            cases hres : rest.result with
            | error status =>
              rw [hres] at hresult
              cases hresult
              rfl
            | ok u =>
              rw [hres] at hresult
              cases hresult
          · rw [hread] at hresult hleft
            refine ⟨?_, hleft⟩
            cases hres : rest.result with
            | error status =>
              rw [hres] at hresult
              cases hresult
            | ok u =>
              rw [hres] at hresult
              cases hresult
              rfl
        · omega
      · rename_i hneg
        split at h
        · rename_i hzero
          cases h
          have hcall : (recv i (b :: buf)).arrival = none := by
            rw [Return.arrival, if_neg hneg, if_pos hzero]
          rw [List.filterMap_cons, hcall]
          exact ⟨rfl, rfl⟩
        · rename_i hnonzero
          obtain ⟨herrno, hstatus⟩ | ⟨hintr, herrno, hstatus⟩ | ⟨hintr, hagain, hstatus⟩ :=
            errnoStatus_cases (recv i (b :: buf)).errno
          · rw [hstatus] at h
            obtain ⟨⟨rest, tail⟩, hrest, heq⟩ := Option.map_eq_some_iff.mp h
            cases heq
            have hcall : (recv i (b :: buf)).arrival = some .interrupted := by
              rw [Return.arrival, if_neg hneg, if_neg hnonzero, if_pos herrno]
            rw [Io.after, List.filterMap_cons, hcall]
            exact ih hrest
          · rw [hstatus] at h
            cases h
            have hcall : (recv i (b :: buf)).arrival = some .timeout := by
              rw [Return.arrival, if_neg hneg, if_neg hnonzero, if_neg hintr, if_pos herrno]
            rw [List.filterMap_cons, hcall]
            exact ⟨rfl, rfl⟩
          · rw [hstatus] at h
            cases h
            have hcall : (recv i (b :: buf)).arrival = some .lost := by
              rw [Return.arrival, if_neg hneg, if_neg hnonzero, if_neg hintr, if_neg hagain]
            rw [List.filterMap_cons, hcall]
            exact ⟨rfl, rfl⟩

theorem readExact_ok {recv : Host} (hrecv : Receives recv) {fuel i : ℕ} {buf out : List UInt8}
    {io : Io} (h : readExact recv fuel i buf = some (io, out)) (hok : io.result = .ok ())
    (more : List Bytes.Arrival) :
    Bytes.readExact buf.length (io.calls.filterMap Return.arrival ++ more) = (.ok out, more) := by
  obtain ⟨hresult, hleft⟩ := readExact_arrivals hrecv h
  rw [hok] at hresult
  rcases hread : Bytes.readExact buf.length (io.calls.filterMap Return.arrival) with ⟨e | bytes, left⟩
  · rw [hread] at hresult
    cases hresult
  · rw [hread] at hresult hleft
    cases hresult
    cases hleft
    exact Bytes.readExact_append hread more

theorem readExact_error {recv : Host} (hrecv : Receives recv) {fuel i : ℕ} {buf out : List UInt8}
    {io : Io} {status : NtStatus} (h : readExact recv fuel i buf = some (io, out))
    (herr : io.result = .error status) :
    ∃ e left, ioStatus e = status ∧
      Bytes.readExact buf.length (io.calls.filterMap Return.arrival) = (.error e, left) := by
  obtain ⟨hresult, -⟩ := readExact_arrivals hrecv h
  rw [herr] at hresult
  rcases hread : Bytes.readExact buf.length (io.calls.filterMap Return.arrival) with ⟨e | bytes, left⟩
  · rw [hread] at hresult
    cases hresult
    exact ⟨e, left, rfl, rfl⟩
  · rw [hread] at hresult
    cases hresult

/-- `exchange` over the loops, up to the point where it parks the reply. -/
def exchangeOver (send recv : Host) (fuel : ℕ) (params : ExchangeParams) :
    Option (List UInt8 × Except NtStatus (ℕ × ℕ × List UInt8)) :=
  if params.socketPath = none ∨ params.timeoutMs = 0 then
    some ([], .error STATUS_INVALID_PARAMETER)
  else if params.requestLen > MAX_MESSAGE_SIZE ∨ (params.requestLen > 0 ∧ params.request = none) then
    some ([], .error STATUS_INVALID_PARAMETER)
  else
    let request := (params.request.getD []).take params.requestLen
    let framed := Bytes.leBytes 4 XML_MAGIC_V2 ++ Bytes.leBytes 2 (params.msgType % 2 ^ 16) ++
      Bytes.leBytes 4 (request.length % 2 ^ 32) ++ request
    (writeAll send fuel 0 framed).bind fun written =>
      match written.result with
      | .error status => some (written.moved, .error status)
      | .ok () =>
          (readExact recv fuel 0 (List.replicate 10 0)).bind fun (read, header) =>
            match read.result with
            | .error status => some (written.moved, .error status)
            | .ok () =>
                if Bytes.fromLeBytes (header.take 4) ≠ XML_MAGIC_V2 then
                  some (written.moved, .error STATUS_INVALID_NETWORK_RESPONSE)
                else
                  let replyType := Bytes.fromLeBytes ((header.drop 4).take 2)
                  let size := Bytes.fromLeBytes ((header.drop 6).take 4)
                  if size > MAX_MESSAGE_SIZE then
                    some (written.moved, .error STATUS_INVALID_NETWORK_RESPONSE)
                  else
                    (readExact recv fuel read.calls.length (List.replicate size 0)).map
                      fun (rest, body) =>
                        (written.moved, rest.result.map fun _ => (replyType, size, body))

/-- Whatever the host does, `exchange` ends as it does with some service at the other end. -/
theorem exchangeOver_eq_exchangeReply {send recv : Host} (hsend : Sends send)
    (hrecv : Receives recv) (params : ExchangeParams) :
    ∃ fuel peer, ∀ more,
      exchangeOver send recv (fuel + more) params = some (exchangeReply params peer) := by
  unfold exchangeOver exchangeReply
  split
  · exact ⟨0, {}, fun _ => rfl⟩
  split
  · exact ⟨0, {}, fun _ => rfl⟩
  dsimp only
  generalize Bytes.leBytes 4 XML_MAGIC_V2 ++ Bytes.leBytes 2 (params.msgType % 2 ^ 16) ++
      Bytes.leBytes 4 (((params.request.getD []).take params.requestLen).length % 2 ^ 32) ++
      (params.request.getD []).take params.requestLen = framed
  obtain ⟨fuel₁, written, hwrite, -, -⟩ := writes hsend 0 framed
  obtain ⟨fuel₂, read, header, hread, -, -, -⟩ := reads hrecv 0 (List.replicate 10 0)
  obtain ⟨fuel₃, rest, body, hrest, -, -, -⟩ := reads hrecv read.calls.length
    (List.replicate (Bytes.fromLeBytes ((header.drop 6).take 4)) 0)
  obtain ⟨hsent, hmoved⟩ := writeAll_departures (hwrite 0)
  have hwrite' : ∀ more, writeAll send (fuel₁ + fuel₂ + fuel₃ + more) 0 framed = some written :=
    fun more => by rw [Nat.add_assoc, Nat.add_assoc]; exact hwrite _
  have hread' : ∀ more, readExact recv (fuel₁ + fuel₂ + fuel₃ + more) 0 (List.replicate 10 0) =
      some (read, header) := fun more => by
    rw [Nat.add_comm fuel₁, Nat.add_assoc, Nat.add_assoc]
    exact hread _
  have hrest' : ∀ more, readExact recv (fuel₁ + fuel₂ + fuel₃ + more) read.calls.length
      (List.replicate (Bytes.fromLeBytes ((header.drop 6).take 4)) 0) = some (rest, body) :=
    fun more => by
      rw [Nat.add_comm (fuel₁ + fuel₂), Nat.add_assoc]
      exact hrest _
  refine ⟨fuel₁ + fuel₂ + fuel₃, ?_⟩
  simp only [hwrite', hread', hrest', Option.bind_some]
  rcases hout : Bytes.writeAll framed (written.calls.map Return.departure) with ⟨e | u, sent⟩
  · rw [hout] at hsent hmoved
    refine ⟨{ departures := written.calls.map Return.departure }, fun more => ?_⟩
    rw [← hsent, ← hmoved, hout]
    rfl
  rw [hout] at hsent hmoved
  simp only [← hsent, ← hmoved, Except.mapError]
  cases hheader : read.result with
  | error status =>
    obtain ⟨e, left, he, harrivals⟩ := readExact_error hrecv (hread 0) hheader
    rw [List.length_replicate] at harrivals
    refine ⟨{ departures := written.calls.map Return.departure
              arrivals := read.calls.filterMap Return.arrival }, fun more => ?_⟩
    simp only [hout, harrivals, he]
  | ok u =>
    have hten := readExact_ok hrecv (hread 0) hheader (rest.calls.filterMap Return.arrival)
    rw [List.length_replicate] at hten
    refine ⟨{ departures := written.calls.map Return.departure
              arrivals := read.calls.filterMap Return.arrival ++
                rest.calls.filterMap Return.arrival }, fun more => ?_⟩
    obtain ⟨hbody, -⟩ := readExact_arrivals hrecv (hrest 0)
    rw [List.length_replicate] at hbody
    simp only [hout, hten]
    split
    · rfl
    split
    · rfl
    cases hsize : (Bytes.readExact (Bytes.fromLeBytes ((header.drop 6).take 4))
      (rest.calls.filterMap Return.arrival)).1 with
    | error e =>
      rw [hsize] at hbody
      cases hlast : rest.result with
      | error status =>
        rw [hlast] at hbody
        cases hbody
        rw [Option.map_some, hlast]
        rfl
      | ok u =>
        rw [hlast] at hbody
        cases hbody
    | ok bytes =>
      rw [hsize] at hbody
      cases hlast : rest.result with
      | error status =>
        rw [hlast] at hbody
        cases hbody
      | ok u =>
        rw [hlast] at hbody
        cases hbody
        rw [Option.map_some, hlast]
        rfl

end XGameRuntime.Ipc.Socket
