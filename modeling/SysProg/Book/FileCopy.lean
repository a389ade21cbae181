import Mathlib.Algebra.Ring.Nat
import SysProg.Lib.Files

/-! # The simple copies

`simpcp1` writes what each `read` gives.  `simpcp2` wants a full buffer before it
writes, and retries a short call; but `fd_read` puts every piece at the start of the
buffer, over the one before, and `fd_write` writes the start of the buffer again.
What the calls return is up to the system.
-/

namespace SysProg.Book

open CString Files

/-- What the calls return for a block size `n`: how many bytes, or `none` for -1.  Behind
    its reads the source ends, and behind its writes every one takes all. -/
structure Calls (n : Nat) where
  reads : List (Option Nat)
  writes : List (Option Nat)
  block : n < 2 ^ 31
  read_some : ∀ k, some k ∈ reads → 0 < k ∧ k ≤ n
  write_some : ∀ w, some w ∈ writes → 0 < w

/-- How many bytes some reads give. -/
def total (reads : List (Option Nat)) : Nat := (reads.map (·.getD 0)).sum

/-! ## `simpcp1` -/

/-- `docopy` of `simpcp1.c`: what it returns, and the bytes that it writes. -/
def docopy1 : List (Option Nat) → List (Option Nat) → Bytes → Int × Bytes
  | [], _, _ => (0, [])
  | none :: _, _, _ => (-3, [])
  | some nr :: reads, writes, src =>
      match writes with
      | none :: _ => (-4, [])
      | some nw :: writes =>
          let rest := docopy1 reads writes (src.drop nr)
          (rest.1, (src.take nr).take nw ++ rest.2)
      | [] =>
          let rest := docopy1 reads [] (src.drop nr)
          (rest.1, src.take nr ++ rest.2)

/-! ## `simpcp2` -/

/-- `fd_read(fd, dbuf, n)` with `tr` bytes read so far: the buffer, what it
    returns, and what is left of the reads and the source. -/
def fdRead (n : Nat) (dbuf : Bytes) (tr : Nat) :
    List (Option Nat) → Bytes → Bytes × Int × List (Option Nat) × Bytes
  | [], src => (dbuf, asInt tr, [], src)
  | none :: reads, src => (dbuf, -1, reads, src)
  | some rd :: reads, src =>
      let dbuf := src.take rd ++ dbuf.drop rd
      if tr + rd < n then fdRead n dbuf (tr + rd) reads (src.drop rd)
      else (dbuf, asInt (tr + rd), reads, src.drop rd)

/-- `fd_write(fd, sbuf, n)` with `tw` bytes written so far: what it returns, what goes into
    the file, and what is left of the writes. -/
def fdWrite (sbuf : Bytes) (n tw : Nat) : List (Option Nat) → Int × Bytes × List (Option Nat)
  | [] => (asInt (tw + n), sbuf.take n, [])
  | none :: writes => (-1, [], writes)
  | some wr :: writes =>
      let wr := min wr n
      if tw + wr < n then
        let rest := fdWrite sbuf n (tw + wr) writes
        (rest.1, sbuf.take wr ++ rest.2.1, rest.2.2)
      else (asInt (tw + wr), sbuf.take wr, writes)

theorem fdRead_shorter {n : Nat} {dbuf dbuf' : Bytes} {tr : Nat} {nr : Int}
    {reads reads' : List (Option Nat)} {src src' : Bytes}
    (read : fdRead n dbuf tr reads src = (dbuf', nr, reads', src')) :
    reads = [] ∧ nr = asInt tr ∨ reads'.length < reads.length := by
  induction reads generalizing dbuf tr src with
  | nil =>
      cases read
      exact .inl ⟨rfl, rfl⟩
  | cons r reads ih =>
      right
      cases r with
      | none =>
          cases read
          simp
      | some rd =>
          unfold fdRead at read
          dsimp only at read
          split at read
          · rcases ih read with ⟨rfl, _⟩ | less
            · unfold fdRead at read
              cases read
              simp
            · simp only [List.length_cons]
              omega
          · cases read
            simp

/-- `docopy` of `simpcp2.c`: what it returns, and the bytes that it writes, or `none` where
    `fd_write` reads past the buffer of `n` bytes. -/
def docopy2 (n : Nat) (buf : Bytes) (reads writes : List (Option Nat)) (src : Bytes) :
    Option (Int × Bytes) :=
  match _ : fdRead n buf 0 reads src with
  | (buf', nr, reads', src') =>
      if nr < 0 then some (-3, [])
      else if _ : nr = 0 then some (0, [])
      else if nr.toNat ≤ n then
        match fdWrite buf' nr.toNat 0 writes with
        | (nw, out, writes') =>
            if nw < 0 then some (-4, out)
            else (docopy2 n buf' reads' writes' src').map fun rest => (rest.1, out ++ rest.2)
      else none
termination_by reads.length
decreasing_by
  rcases fdRead_shorter ‹_› with ⟨_, rfl⟩ | less
  · exact absurd asInt_zero ‹_›
  · exact less

variable {n : Nat} {buf buf' src src' : Bytes} {reads reads' writes : List (Option Nat)}

theorem docopy2_eq {nr : Int} (read : fdRead n buf 0 reads src = (buf', nr, reads', src')) :
    docopy2 n buf reads writes src =
      if nr < 0 then some (-3, [])
      else if nr = 0 then some (0, [])
      else if nr.toNat ≤ n then
        if (fdWrite buf' nr.toNat 0 writes).1 < 0 then
          some (-4, (fdWrite buf' nr.toNat 0 writes).2.1)
        else
          (docopy2 n buf' reads' (fdWrite buf' nr.toNat 0 writes).2.2 src').map fun rest =>
            (rest.1, (fdWrite buf' nr.toNat 0 writes).2.1 ++ rest.2)
      else none := by
  rw [docopy2.eq_def]
  split
  rename_i now
  rw [read] at now
  cases now
  split
  · rfl
  · split
    · rfl
    · rfl

@[simp] theorem docopy2_nil : docopy2 n buf [] writes src = some (0, []) := by
  have read : fdRead n buf 0 [] src = (buf, 0, [], src) := by rw [fdRead, asInt_zero]
  rw [docopy2_eq read]
  rfl

@[simp] theorem docopy2_none : docopy2 n buf (none :: reads) writes src = some (-3, []) := by
  have read : fdRead n buf 0 (none :: reads) src = (buf, -1, reads, src) := rfl
  rw [docopy2_eq read]
  rfl

/-! ## Which calls the programs can do with -/

/-- No call fails, and every write takes all that its read has given. -/
def Uncut : List (Option Nat) → List (Option Nat) → Prop
  | [], _ => True
  | none :: _, _ => False
  | some nr :: reads, writes =>
      (∀ r ∈ writes.head?, ∃ nw, r = some nw ∧ nr ≤ nw) ∧ Uncut reads writes.tail

theorem total_cons (k : Nat) : total (some k :: reads) = k + total reads := by
  simp [total]

theorem docopy1_length (reads writes : List (Option Nat)) (src : Bytes) :
    (docopy1 reads writes src).2.length ≤ src.length := by
  induction reads generalizing writes src with
  | nil => simp [docopy1]
  | cons r reads ih =>
      cases r with
      | none => simp [docopy1]
      | some nr =>
          have later := fun writes => ih writes (src.drop nr)
          simp only [List.length_drop] at later
          match writes with
          | [] =>
              have rest := later []
              simp only [docopy1, List.length_append, List.length_take]
              omega
          | none :: writes => simp [docopy1]
          | some nw :: writes =>
              have rest := later writes
              simp only [docopy1, List.length_append, List.length_take]
              omega

/-- A pass whose write takes all. -/
theorem docopy1_pass {k : Nat} (takes : ∀ r ∈ writes.head?, ∃ nw, r = some nw ∧ k ≤ nw) :
    docopy1 (some k :: reads) writes src =
      ((docopy1 reads writes.tail (src.drop k)).1,
        src.take k ++ (docopy1 reads writes.tail (src.drop k)).2) := by
  cases writes with
  | nil => rfl
  | cons r writes =>
      obtain ⟨nw, rfl, enough⟩ := takes r (by simp)
      have all : (src.take k).take nw = src.take k := by
        rw [List.take_take, Nat.min_eq_right enough]
      simp [docopy1, all]

/-- `simpcp1` copies every source exactly when every write takes all. -/
theorem docopy1_iff (reads writes : List (Option Nat)) :
    (∀ src : Bytes, src.length = total reads → docopy1 reads writes src = (0, src)) ↔
      Uncut reads writes := by
  induction reads generalizing writes with
  | nil =>
      refine iff_of_true (fun src length => ?_) trivial
      rw [List.eq_nil_of_length_eq_zero length]
      rfl
  | cons r reads ih =>
      cases r with
      | none =>
          refine iff_of_false (fun copies => ?_) id
          have failed := copies (List.replicate (total (none :: reads)) 0) (by simp)
          simp [docopy1] at failed
      | some k =>
          by_cases takes : ∀ r ∈ writes.head?, ∃ nw, r = some nw ∧ k ≤ nw
          · rw [Uncut, and_iff_right takes, ← ih writes.tail]
            constructor
            · intro copies src length
              have whole := copies (List.replicate k 0 ++ src) (by simp [total_cons, length])
              rw [docopy1_pass takes, List.take_left' (by simp), List.drop_left' (by simp)] at whole
              obtain ⟨code, written⟩ := Prod.mk.inj whole
              exact Prod.ext code (List.append_cancel_left written)
            · intro copies src length
              have rest := copies (src.drop k) (by simp [length, total_cons])
              rw [docopy1_pass takes, rest, List.take_append_drop]
          · refine iff_of_false (fun copies => takes ?_) fun whole => takes whole.1
            have all := copies (List.replicate (total (some k :: reads)) 0) (by simp)
            match writes with
            | [] => simp
            | none :: writes => simp [docopy1] at all
            | some nw :: writes =>
                have written := congrArg (fun r => r.2.length) all
                have rest := docopy1_length reads writes
                  ((List.replicate (total (some k :: reads)) 0).drop k)
                simp only [docopy1, List.length_append, List.length_take, List.length_drop,
                  List.length_replicate, total_cons] at written rest
                refine fun r head => ⟨nw, ?_, by omega⟩
                simpa using head.symm

section simpcp2

variable {k : Nat}

/-- A read that fills the buffer, or that ends the source, is the only one of its pass. -/
theorem fdRead_once (block : n < 2 ^ 31) (small : k ≤ n) (once : k = n ∨ reads = []) :
    fdRead n buf 0 (some k :: reads) src =
      (src.take k ++ buf.drop k, (k : Int), reads, src.drop k) := by
  have count : asInt (0 + k) = k := by
    rw [Nat.zero_add]
    exact asInt_of_small (by omega)
  unfold fdRead
  dsimp only
  split
  · rcases once with rfl | rfl
    · omega
    · rw [fdRead, count]
  · rw [count]

/-- A write that takes all is the only one of its pass. -/
theorem fdWrite_once (small : k < 2 ^ 31)
    (takes : ∀ r ∈ writes.head?, ∃ nw, r = some nw ∧ k ≤ nw) :
    fdWrite buf k 0 writes = ((k : Int), buf.take k, writes.tail) := by
  have count := asInt_of_small small
  cases writes with
  | nil => simp [fdWrite, count]
  | cons r writes =>
      obtain ⟨nw, rfl, enough⟩ := takes r (by simp)
      simp [fdWrite, Nat.min_eq_right enough, count]

theorem docopy2_pass (block : n < 2 ^ 31) (positive : 0 < k) (small : k ≤ n)
    (once : k = n ∨ reads = []) (long : k ≤ src.length)
    (takes : ∀ r ∈ writes.head?, ∃ nw, r = some nw ∧ k ≤ nw) :
    docopy2 n buf (some k :: reads) writes src =
      (docopy2 n (src.take k ++ buf.drop k) reads writes.tail (src.drop k)).map fun rest =>
        (rest.1, src.take k ++ rest.2) := by
  have front : (src.take k ++ buf.drop k).take k = src.take k :=
    List.take_left' (by rw [List.length_take]; omega)
  rw [docopy2_eq (fdRead_once block small once), if_neg (by omega), if_neg (by omega),
    Int.toNat_natCast, if_pos small, fdWrite_once (by omega) takes, if_neg (by omega), front]

/-! ## Sources that are spoilt -/

theorem head_take_append {wr : Nat} (positive : 0 < wr) {b : UInt8} (head : buf.head? = some b)
    (rest : Bytes) : (buf.take wr ++ rest).head? = some b := by
  obtain ⟨wr, rfl⟩ := Nat.exists_eq_succ_of_ne_zero (Nat.ne_of_gt positive)
  cases buf with
  | nil => cases head
  | cons c buf => simpa using head

/-- Unless the call fails, what it writes begins like its buffer. -/
theorem fdWrite_head (tw : Nat) {size : Nat} {b : UInt8} (positive : 0 < size)
    (some_ : ∀ w, some w ∈ writes → 0 < w) (head : buf.head? = some b) :
    (fdWrite buf size tw writes).1 < 0 ∨ (fdWrite buf size tw writes).2.1.head? = some b := by
  match writes with
  | [] =>
      right
      simpa [fdWrite] using head_take_append positive head []
  | none :: writes => simp [fdWrite]
  | some wr :: writes =>
      right
      have taken : 0 < min wr size := Nat.lt_min.mpr ⟨some_ wr List.mem_cons_self, positive⟩
      unfold fdWrite
      dsimp only
      split
      · exact head_take_append taken head _
      · simpa using head_take_append taken head []

/-- Zeros that are read leave a zero in front, unless a read fails. -/
theorem fdRead_zero (buf : Bytes) (tr : Nat) (some_ : ∀ k, some k ∈ reads → 0 < k)
    (zeros : ∀ b ∈ src, b = 0)
    (length : src.length = total reads) (front : reads = [] → buf.head? = some 0) :
    (fdRead n buf tr reads src).2.1 < 0 ∨ (fdRead n buf tr reads src).1.head? = some 0 := by
  induction reads generalizing buf tr src with
  | nil => exact .inr (front rfl)
  | cons r reads ih =>
      cases r with
      | none => simp [fdRead]
      | some k =>
          have positive := some_ k List.mem_cons_self
          rw [total_cons] at length
          have head : src.head? = some 0 := by
            cases src with
            | nil =>
                rw [List.length_nil] at length
                omega
            | cons b src => rw [zeros b List.mem_cons_self, List.head?_cons]
          have now := head_take_append positive head (buf.drop k)
          unfold fdRead
          dsimp only
          split
          · exact ih _ _ (fun k' inside => some_ k' (List.mem_cons_of_mem _ inside))
              (fun b inside => zeros b (List.mem_of_mem_drop inside))
              (by rw [List.length_drop]; omega) fun _ => now
          · exact .inr now

/-- With bytes counted `fd_read` does not report the end of the file. -/
theorem fdRead_ne_zero (buf src : Bytes) {tr : Nat} (block : n < 2 ^ 31)
    (some_ : ∀ k, some k ∈ reads → k ≤ n)
    (positive : 0 < tr) (below : tr < n) : (fdRead n buf tr reads src).2.1 ≠ 0 := by
  induction reads generalizing buf tr src with
  | nil => exact asInt_ne_zero positive (by omega)
  | cons r reads ih =>
      cases r with
      | none => simp [fdRead]
      | some k =>
          have small := some_ k List.mem_cons_self
          unfold fdRead
          dsimp only
          split
          · exact ih _ _ (fun k' inside => some_ k' (List.mem_cons_of_mem _ inside)) (by omega) ‹_›
          · exact asInt_ne_zero (by omega) (by omega)

/-- A one with zeros behind it. -/
def oneZeros (size : Nat) : Bytes := 1 :: List.replicate (size - 1) 0

theorem oneZeros_length {size : Nat} (positive : 0 < size) : (oneZeros size).length = size := by
  simp only [oneZeros, List.length_cons, List.length_replicate]
  omega

theorem oneZeros_drop (size : Nat) {j : Nat} (positive : 0 < j) :
    ∀ b ∈ (oneZeros size).drop j, b = 0 := by
  obtain ⟨j, rfl⟩ := Nat.exists_eq_succ_of_ne_zero (Nat.ne_of_gt positive)
  exact fun b inside => (List.mem_replicate.mp (List.mem_of_mem_drop inside)).2

theorem oneZeros_head_drop {size j : Nat} (positive : 0 < j) (inside : j < size) :
    ((oneZeros size).drop j).head? = some 0 := by
  have nonempty : (oneZeros size).drop j ≠ [] := by
    refine List.ne_nil_of_length_pos ?_
    rw [List.length_drop, oneZeros_length (by omega)]
    omega
  obtain ⟨b, rest, is⟩ := List.exists_cons_of_ne_nil nonempty
  rw [is, List.head?_cons, oneZeros_drop size positive b (is ▸ List.mem_cons_self)]

/-- A short read that is not the last spoils a copy: the next piece is put over a one at
    the start of the buffer. -/
theorem docopy2_short_read (block : n < 2 ^ 31)
    (read_some : ∀ k', some k' ∈ some k :: reads → 0 < k' ∧ k' ≤ n)
    (write_some : ∀ w, some w ∈ writes → 0 < w) (short : k ≠ n) (more : reads ≠ []) :
    docopy2 n buf (some k :: reads) writes (oneZeros (total (some k :: reads))) ≠
      some (0, oneZeros (total (some k :: reads))) := by
  obtain ⟨positive, small⟩ := read_some k List.mem_cons_self
  have later : ∀ k', some k' ∈ reads → 0 < k' ∧ k' ≤ n :=
    fun k' inside => read_some k' (List.mem_cons_of_mem _ inside)
  have some_ : 0 < total (some k :: reads) := by
    rw [total_cons]
    omega
  have length : ((oneZeros (total (some k :: reads))).drop k).length = total reads := by
    rw [List.length_drop, oneZeros_length some_, total_cons, Nat.add_sub_cancel_left]
  have zeros := oneZeros_drop (total (some k :: reads)) positive
  have one : (oneZeros (total (some k :: reads))).head? = some 1 := rfl
  generalize oneZeros (total (some k :: reads)) = src at *
  generalize read : fdRead n buf 0 (some k :: reads) src = result
  have step := read
  unfold fdRead at step
  dsimp only at step
  rw [Nat.zero_add, if_pos (by omega)] at step
  have front := @fdRead_zero n _ _ (src.take k ++ buf.drop k) k
    (fun k' inside => (later k' inside).1) zeros length fun none_ => absurd none_ more
  have counted := fdRead_ne_zero (src.take k ++ buf.drop k) (src.drop k) block
    (fun k' inside => (later k' inside).2) positive (show k < n by omega)
  rw [step] at front counted
  obtain ⟨buf', nr, reads', src'⟩ := result
  dsimp only at front counted
  rw [docopy2_eq read, if_neg counted]
  split
  · simp
  · split
    · have head := front.resolve_left ‹_›
      have size : 0 < nr.toNat := by omega
      split
      · simp
      · have out := (fdWrite_head 0 size write_some head).resolve_left ‹_›
        intro same
        obtain ⟨rest, _, same⟩ := Option.map_eq_some_iff.mp same
        have heads := congrArg (fun r => r.2.head?) same
        simp [List.head?_append, out, one] at heads
    · simp

/-- A short write spoils a copy: the next one begins with the one at the start of the
    buffer again. -/
theorem docopy2_short_write (block : n < 2 ^ 31) (positive : 0 < k) (small : k ≤ n)
    (write_some : ∀ w, some w ∈ writes → 0 < w) (once : k = n ∨ reads = [])
    (short : ¬ ∀ r ∈ writes.head?, ∃ nw, r = some nw ∧ k ≤ nw) :
    docopy2 n buf (some k :: reads) writes (oneZeros (total (some k :: reads))) ≠
      some (0, oneZeros (total (some k :: reads))) := by
  rw [docopy2_eq (fdRead_once block small once), if_neg (by omega), if_neg (by omega),
    Int.toNat_natCast, if_pos small]
  have head : ((oneZeros (total (some k :: reads))).take k ++ buf.drop k).head? = some 1 :=
    head_take_append positive rfl _
  match writes with
  | [] => simp at short
  | none :: writes => simp [fdWrite]
  | some wr :: writes =>
      have taken : 0 < wr := write_some wr List.mem_cons_self
      have less : wr < k := by simpa using short
      have again := fdWrite_head (0 + wr) positive
        (fun w inside => write_some w (List.mem_cons_of_mem _ inside)) head
      simp only [fdWrite, Nat.min_eq_left (Nat.le_of_lt less), Nat.zero_add, if_pos less] at again ⊢
      split
      · simp
      · have out := again.resolve_left ‹_›
        intro same
        obtain ⟨rest, _, same⟩ := Option.map_eq_some_iff.mp same
        -- behind the short write the file has a one, and the source a zero
        have behind := congrArg (fun r => (r.2.drop wr).head?) same
        have inside : wr < total (some k :: reads) := by
          rw [total_cons]
          omega
        have front : (((oneZeros (total (some k :: reads))).take k ++ buf.drop k).take wr).length =
            wr := by
          rw [List.length_take, List.length_append, List.length_take,
            oneZeros_length (Nat.zero_lt_of_lt inside), total_cons]
          omega
        simp only [List.append_assoc, List.drop_left' front, List.head?_append, out,
          Option.some_or, oneZeros_head_drop taken inside] at behind
        simp at behind

/-- A pass with full calls leaves the rest of the copy to the passes behind it. -/
theorem docopy2_pass_iff (block : n < 2 ^ 31) (positive : 0 < k) (small : k ≤ n)
    (once : k = n ∨ reads = []) (takes : ∀ r ∈ writes.head?, ∃ nw, r = some nw ∧ k ≤ nw) :
    (∀ buf src : Bytes, buf.length = n → src.length = total (some k :: reads) →
      docopy2 n buf (some k :: reads) writes src = some (0, src)) ↔
    ∀ buf src : Bytes, buf.length = n → src.length = total reads →
      docopy2 n buf reads writes.tail src = some (0, src) := by
  constructor
  · intro copies buf src size length
    rcases once with rfl | rfl
    · have whole := copies buf (buf ++ src) size (by simp [total_cons, size, length])
      rw [docopy2_pass block positive small (.inl rfl) (by simp [size]) takes,
        List.take_left' size, List.drop_left' size, List.drop_of_length_le (by omega),
        List.append_nil, Option.map_eq_some_iff] at whole
      obtain ⟨⟨code, written⟩, now, same⟩ := whole
      simp only [Prod.mk.injEq, List.append_cancel_left_eq] at same
      rw [now, same.1, same.2]
    · rw [List.eq_nil_of_length_eq_zero length, docopy2_nil]
  · intro copies buf src size length
    have long : k ≤ src.length := by
      rw [length, total_cons]
      omega
    rw [docopy2_pass block positive small once long takes, copies _ (src.drop k)]
    · simp
    · simp only [List.length_append, List.length_take, List.length_drop]
      omega
    · rw [List.length_drop, length, total_cons, Nat.add_sub_cancel_left]

/-- `simpcp2` copies every source exactly when every write takes all, and no read before
    the last is short. -/
theorem docopy2_iff (block : n < 2 ^ 31) (read_some : ∀ k, some k ∈ reads → 0 < k ∧ k ≤ n)
    (write_some : ∀ w, some w ∈ writes → 0 < w) :
    (∀ buf src : Bytes, buf.length = n → src.length = total reads →
      docopy2 n buf reads writes src = some (0, src)) ↔
      Uncut reads writes ∧ ∀ r ∈ reads.dropLast, r = some n := by
  induction reads generalizing writes with
  | nil =>
      refine iff_of_true (fun buf src _ length => ?_) ⟨trivial, by simp⟩
      rw [List.eq_nil_of_length_eq_zero length, docopy2_nil]
  | cons r reads ih =>
      cases r with
      | none =>
          refine iff_of_false (fun copies => ?_) And.left
          have failed := copies (List.replicate n 0) (List.replicate (total (none :: reads)) 0)
            (by simp) (by simp)
          simp at failed
      | some k =>
          obtain ⟨positive, small⟩ := read_some k List.mem_cons_self
          have some_ : 0 < total (some k :: reads) := by
            rw [total_cons]
            omega
          have one := oneZeros_length some_
          by_cases once : k = n ∨ reads = []
          · by_cases takes : ∀ r ∈ writes.head?, ∃ nw, r = some nw ∧ k ≤ nw
            · have rest := ih (fun k' inside => read_some k' (List.mem_cons_of_mem _ inside))
                fun w inside => write_some w (List.mem_of_mem_tail inside)
              have full : (∀ r ∈ (some k :: reads).dropLast, r = some n) ↔
                  ∀ r ∈ reads.dropLast, r = some n := by
                cases reads with
                | nil => simp
                | cons r reads => simpa using fun _ => once
              rw [Uncut, and_iff_right takes, full, ← rest]
              exact docopy2_pass_iff block positive small once takes
            · exact iff_of_false
                (fun copies => docopy2_short_write block positive small write_some once takes
                  (copies (List.replicate n 0) _ (by simp) one))
                fun whole => takes whole.1.1
          · rw [not_or] at once
            refine iff_of_false
              (fun copies => docopy2_short_read block read_some write_some once.1 once.2
                (copies (List.replicate n 0) _ (by simp) one)) fun whole => once.1 ?_
            cases reads with
            | nil => exact absurd rfl once.2
            | cons r reads => simpa using whole.2 (some k) (by simp)

end simpcp2

/-- What stands in a file after a copy over its old contents that returned 0. -/
def Calls.Copies1 (calls : Calls n) : Prop :=
  ∀ src old : Bytes, src.length = total calls.reads → ∃ written,
    docopy1 calls.reads calls.writes src = (0, written) ∧
      pwrite old 0 written = src ++ old.drop src.length

def Calls.Copies2 (calls : Calls n) : Prop :=
  ∀ buf src old : Bytes, buf.length = n → src.length = total calls.reads → ∃ written,
    docopy2 n buf calls.reads calls.writes src = some (0, written) ∧
      pwrite old 0 written = src ++ old.drop src.length

/-- `simpcp1` copies every source over the beginning of every old file, whose tail stays
    behind a shorter source, exactly when no call fails and every write takes all that its
    read has given.  `simpcp2`, which means to make up for short calls, needs in addition
    that no read before the last is short: a retry reads over the beginning of the buffer,
    or writes it again. -/
theorem simpcp_copies_iff (calls : Calls n) :
    (calls.Copies1 ↔ Uncut calls.reads calls.writes) ∧
      (calls.Copies2 ↔
        Uncut calls.reads calls.writes ∧ ∀ r ∈ calls.reads.dropLast, r = some n) := by
  rw [← docopy2_iff calls.block calls.read_some calls.write_some, ← docopy1_iff]
  refine ⟨⟨fun copies src length => ?_, fun copies src old length => ?_⟩,
    ⟨fun copies buf src size length => ?_, fun copies buf src old size length => ?_⟩⟩
  · obtain ⟨written, done, same⟩ := copies src [] length
    rw [pwrite_zero] at same
    simp at same
    rw [done, same]
  · exact ⟨src, copies src length, pwrite_zero old src⟩
  · obtain ⟨written, done, same⟩ := copies buf src [] size length
    rw [pwrite_zero] at same
    simp at same
    rw [done, same]
  · exact ⟨src, copies buf src size length, pwrite_zero old src⟩

end SysProg.Book
