import Mathlib.Data.List.Nodup
import SysProg.Lib.Files
import SysProg.Lib.Transition

/-! # The multithreaded copy

`mt_copy` cuts the source into one segment a thread and leaves the rest of the
division to the last thread; every thread copies its segments with `pread` and
`pwrite`.  The loops of `fd_read` and `fd_write` retry a short call at the same place.
Whatever a thread fails to do is passed over.
-/

namespace SysProg.Book

open CString Files Transition

/-! ## Segments -/

/-- A part of a file. -/
structure Segment where
  off : Nat
  len : Nat
  deriving DecidableEq

/-- The offsets in a segment. -/
def Segment.Has (seg : Segment) (x : Nat) : Prop := seg.off ≤ x ∧ x < seg.off + seg.len

instance (seg : Segment) (x : Nat) : Decidable (seg.Has x) := by
  unfold Segment.Has
  infer_instance

/-- What `do_mt_copy` gives thread `i` of `n` to copy, in the order of `worker`. -/
def segments (n fsize i : Nat) : List Segment :=
  ⟨i * (fsize / n), fsize / n⟩ ::
    if fsize % n ≠ 0 ∧ i = n - 1 then [⟨i * (fsize / n) + fsize / n, fsize % n⟩] else []

section tiles

variable {n fsize i j x : Nat}

theorem mul_div_le_of_lt (fsize : Nat) (below : i < n) :
    i * (fsize / n) + fsize / n ≤ n * (fsize / n) := by
  have step : (i + 1) * (fsize / n) ≤ n * (fsize / n) := Nat.mul_le_mul_right _ below
  rwa [Nat.succ_mul] at step

/-- The last thread's rest starts where the equal parts end. -/
theorem rest_off (positive : 0 < n) :
    (n - 1) * (fsize / n) + fsize / n = n * (fsize / n) := by
  have step : (n - 1 + 1) * (fsize / n) = (n - 1) * (fsize / n) + fsize / n := Nat.succ_mul _ _
  rw [← step, Nat.sub_add_cancel positive]

theorem mem_segments (positive : 0 < n) {seg : Segment} (inside : seg ∈ segments n fsize i) :
    seg = ⟨i * (fsize / n), fsize / n⟩ ∨ (i = n - 1 ∧ seg = ⟨n * (fsize / n), fsize % n⟩) := by
  unfold segments at inside
  rcases List.mem_cons.mp inside with is | rest
  · exact .inl is
  · right
    split at rest
    · rename_i last
      obtain ⟨_, rfl⟩ := last
      rw [List.mem_singleton] at rest
      exact ⟨rfl, by rw [rest, rest_off positive]⟩
    · cases rest

/-- Two segments that share an offset are one. -/
theorem segments_apart (below : i < n) (below' : j < n) {seg seg' : Segment}
    (inside : seg ∈ segments n fsize i) (inside' : seg' ∈ segments n fsize j) (has : seg.Has x)
    (has' : seg'.Has x) : i = j ∧ seg = seg' := by
  have equal : ∀ {i j}, i < j → j < n → (⟨i * (fsize / n), fsize / n⟩ : Segment).Has x →
      ¬ (⟨j * (fsize / n), fsize / n⟩ : Segment).Has x := by
    intro i j less below has has'
    have step := Nat.mul_le_mul_right (fsize / n) less
    rw [Nat.succ_mul] at step
    simp only [Segment.Has] at has has'
    omega
  have rest : ∀ {i}, i < n → (⟨i * (fsize / n), fsize / n⟩ : Segment).Has x →
      ¬ (⟨n * (fsize / n), fsize % n⟩ : Segment).Has x := by
    intro i below has has'
    have ends := mul_div_le_of_lt fsize below
    simp only [Segment.Has] at has has'
    omega
  rcases mem_segments (by omega) inside with rfl | ⟨rfl, rfl⟩ <;>
    rcases mem_segments (by omega) inside' with rfl | ⟨rfl, rfl⟩
  · rcases Nat.lt_trichotomy i j with less | rfl | less
    · exact absurd has' (equal less below' has)
    · exact ⟨rfl, rfl⟩
    · exact absurd has (equal less below has')
  · exact absurd has' (rest below has)
  · exact absurd has (rest below' has')
  · exact ⟨rfl, rfl⟩

/-- Every offset of the source is in a segment. -/
theorem segments_cover (positive : 0 < n) (below : x < fsize) :
    ∃ i, i < n ∧ ∃ seg ∈ segments n fsize i, seg.Has x := by
  have whole := Nat.div_add_mod fsize n
  by_cases rest : n * (fsize / n) ≤ x
  · refine ⟨n - 1, by omega, ⟨n * (fsize / n), fsize % n⟩, ?_, rest, by dsimp only; omega⟩
    have some_ : fsize % n ≠ 0 := by omega
    simp [segments, some_, rest_off positive]
  · have quotient : 0 < fsize / n := Nat.pos_of_ne_zero fun zero => by
      rw [zero, Nat.mul_zero] at rest
      omega
    refine ⟨x / (fsize / n), ?_, ⟨x / (fsize / n) * (fsize / n), fsize / n⟩, by simp [segments], ?_⟩
    · exact (Nat.div_lt_iff_lt_mul quotient).mpr (by omega)
    · have division := Nat.div_add_mod x (fsize / n)
      have small := Nat.mod_lt x quotient
      rw [Nat.mul_comm] at division
      simp only [Segment.Has]
      omega

/-- A segment ends in the source. -/
theorem segments_inside (below : i < n) {seg : Segment} (inside : seg ∈ segments n fsize i) :
    seg.off + seg.len ≤ fsize := by
  have whole := Nat.div_add_mod fsize n
  rcases mem_segments (by omega) inside with rfl | ⟨rfl, rfl⟩
  · have ends := mul_div_le_of_lt fsize below
    dsimp only
    omega
  · dsimp only
    omega

theorem segments_nodup : (segments n fsize i).Nodup := by
  unfold segments
  split
  · rename_i last
    obtain ⟨some_, rfl⟩ := last
    have differs : (⟨(n - 1) * (fsize / n), fsize / n⟩ : Segment) ≠
        ⟨(n - 1) * (fsize / n) + fsize / n, fsize % n⟩ := by
      intro same
      have off := congrArg Segment.off same
      have len := congrArg Segment.len same
      dsimp only at off len
      omega
    simp [differs]
  · simp

end tiles

/-! ## The threads -/

/-- One `__do_mt_copy`: its segment and its buffer, and up to where in the segment a
    `pread` and a `pwrite` have come. -/
structure Transfer where
  seg : Segment
  buf : Bytes
  got : Nat
  put : Nat

/-- Where a thread stands in `worker`: between two segments, in `fd_read` with `tr` bytes
    counted, in `fd_write` of `nr` bytes with `tw` counted, or with a read behind the end
    of its buffer, after which the code promises nothing. -/
inductive CopyPc where
  | between (todo : List Segment)
  | reading (t : Transfer) (tr : Nat) (todo : List Segment)
  | writing (t : Transfer) (nr tw : Nat) (todo : List Segment)
  | astray (t : Transfer) (todo : List Segment)

/-- The segments that a thread has not begun. -/
def CopyPc.todo : CopyPc → List Segment
  | .between todo | .reading _ _ todo | .writing _ _ _ todo | .astray _ todo => todo

/-- The transfer that a thread is at. -/
def CopyPc.current : CopyPc → List Transfer
  | .between _ => []
  | .reading t _ _ | .writing t _ _ _ | .astray t _ => [t]

/-- The destination, the threads, and what each of them has left behind. -/
structure Copy (n : Nat) where
  dest : Bytes
  pc : Fin n → CopyPc
  done : Fin n → List Transfer

namespace Copy

variable {n : Nat}

/-- The transfers that a thread has begun. -/
def transfers (s : Copy n) (i : Fin n) : List Transfer := s.done i ++ (s.pc i).current

def todo (s : Copy n) (i : Fin n) : List Segment := (s.pc i).todo

def moveTo (s : Copy n) (i : Fin n) (pc : CopyPc) : Copy n :=
  { s with pc := Function.update s.pc i pc }

/-- `__do_mt_copy` returns, and nobody looks at what. -/
def retire (s : Copy n) (i : Fin n) (t : Transfer) (todo : List Segment) : Copy n :=
  { s.moveTo i (.between todo) with done := Function.update s.done i (s.done i ++ [t]) }

/-- `fd_read` has counted `tr` bytes: it returns them as an `int`, and a count that is not
    positive is taken for a failure or the end of the file. -/
def fdReadReturns (s : Copy n) (i : Fin n) (t : Transfer) (tr : Nat) (todo : List Segment) :
    Copy n :=
  if 0 < asInt tr then s.moveTo i (.writing t (asInt tr).toNat 0 todo) else s.retire i t todo

/-- `while (tr < n)` in `fd_read` -/
def fdReadLoops (s : Copy n) (i : Fin n) (t : Transfer) (tr : Nat) (todo : List Segment) : Copy n :=
  if tr < t.seg.len then s.moveTo i (.reading t tr todo) else s.fdReadReturns i t tr todo

/-- `while (tw < n)` in `fd_write` -/
def fdWriteLoops (s : Copy n) (i : Fin n) (t : Transfer) (nr tw : Nat) (todo : List Segment) :
    Copy n :=
  if tw < nr then s.moveTo i (.writing t nr tw todo) else s.retire i t todo

end Copy

variable {n : Nat}

/-- One thread moves.  The source is a regular file, of which `pread` gives some of what
    is there, and `pwrite` takes some of what it gets; either may fail, and so may the
    malloc, which says nothing about what is in its memory. -/
inductive CopyStep (src : Bytes) : Copy n → Fin n → Copy n → Prop where
  | malloc {s : Copy n} {i seg todo} (buf : Bytes) : s.pc i = .between (seg :: todo) →
      buf.length = seg.len → CopyStep src s i (s.moveTo i (.reading ⟨seg, buf, 0, 0⟩ 0 todo))
  | failMalloc {s : Copy n} {i seg todo} : s.pc i = .between (seg :: todo) →
      CopyStep src s i (s.retire i ⟨seg, [], 0, 0⟩ todo)
  /-- Each retry puts its bytes at the start of the buffer, and asks for the same offset. -/
  | pread {s : Copy n} {i t tr todo} (rd : Nat) : s.pc i = .reading t tr todo → 0 < rd →
      rd ≤ min t.seg.len (src.length - t.seg.off) →
      CopyStep src s i
        (s.fdReadLoops i
          { t with
            buf := (src.drop t.seg.off).take rd ++ t.buf.drop rd
            got := max t.got rd }
          (tr + rd) todo)
  | eof {s : Copy n} {i t tr todo} : s.pc i = .reading t tr todo →
      min t.seg.len (src.length - t.seg.off) = 0 → CopyStep src s i (s.fdReadReturns i t tr todo)
  | failRead {s : Copy n} {i t tr todo} : s.pc i = .reading t tr todo →
      CopyStep src s i (s.retire i t todo)
  /-- Each retry writes the start of the buffer again, to the same offset. -/
  | pwrite {s : Copy n} {i t nr tw todo} (wr : Nat) : s.pc i = .writing t nr tw todo →
      nr ≤ t.buf.length → 0 < wr → wr ≤ nr →
      CopyStep src s i
        { s.fdWriteLoops i { t with put := max t.put wr } nr (tw + wr) todo with
          dest := Files.pwrite s.dest t.seg.off (t.buf.take wr) }
  | astray {s : Copy n} {i t nr tw todo} : s.pc i = .writing t nr tw todo → t.buf.length < nr →
      CopyStep src s i (s.moveTo i (.astray t todo))
  | failWrite {s : Copy n} {i t nr tw todo} : s.pc i = .writing t nr tw todo →
      CopyStep src s i (s.retire i t todo)

/-- `do_mt_copy` with the file that is there at the start; it was not truncated. -/
def mtCopy (n : Nat) (src old : Bytes) : System (Copy n) (Fin n) where
  init s := s = ⟨old, fun i => .between (segments n src.length i), fun _ => []⟩
  step := CopyStep src

namespace Copy

variable {s : Copy n} {i : Fin n} {t : Transfer} {pc : CopyPc} {rest : List Segment}

theorem transfers_moveTo :
    (s.moveTo i pc).transfers = Function.update s.transfers i (s.done i ++ pc.current) := by
  funext j
  by_cases same : j = i
  · subst same
    simp [transfers, moveTo]
  · simp [transfers, moveTo, same]

theorem todo_moveTo : (s.moveTo i pc).todo = Function.update s.todo i pc.todo := by
  funext j
  by_cases same : j = i
  · subst same
    simp [todo, moveTo]
  · simp [todo, moveTo, same]

theorem transfers_retire :
    (s.retire i t rest).transfers = Function.update s.transfers i (s.done i ++ [t]) := by
  funext j
  by_cases same : j = i
  · subst same
    simp [transfers, retire, moveTo, CopyPc.current]
  · simp [transfers, retire, moveTo, same]

theorem todo_retire : (s.retire i t rest).todo = Function.update s.todo i rest := todo_moveTo

theorem fdReadReturns_cases (tr : Nat) :
    s.fdReadReturns i t tr rest = s.moveTo i (.writing t (asInt tr).toNat 0 rest) ∨
      s.fdReadReturns i t tr rest = s.retire i t rest := by
  unfold fdReadReturns
  split
  · exact .inl rfl
  · exact .inr rfl

/-- `fd_read` leaves the transfer with the thread, whatever comes next. -/
theorem fdReadReturns_view (tr : Nat) :
    (s.fdReadReturns i t tr rest).dest = s.dest ∧
      (s.fdReadReturns i t tr rest).transfers = Function.update s.transfers i (s.done i ++ [t]) ∧
      (s.fdReadReturns i t tr rest).todo = Function.update s.todo i rest := by
  rcases @fdReadReturns_cases n s i t rest tr with is | is
  · rw [is]
    exact ⟨rfl, transfers_moveTo, todo_moveTo⟩
  · rw [is]
    exact ⟨rfl, transfers_retire, todo_retire⟩

theorem fdReadLoops_view (tr : Nat) :
    (s.fdReadLoops i t tr rest).dest = s.dest ∧
      (s.fdReadLoops i t tr rest).transfers = Function.update s.transfers i (s.done i ++ [t]) ∧
      (s.fdReadLoops i t tr rest).todo = Function.update s.todo i rest := by
  unfold fdReadLoops
  split
  · exact ⟨rfl, transfers_moveTo, todo_moveTo⟩
  · exact fdReadReturns_view tr

theorem fdWriteLoops_view (nr tw : Nat) :
    (s.fdWriteLoops i t nr tw rest).transfers = Function.update s.transfers i (s.done i ++ [t]) ∧
      (s.fdWriteLoops i t nr tw rest).todo = Function.update s.todo i rest := by
  unfold fdWriteLoops
  split
  · exact ⟨transfers_moveTo, todo_moveTo⟩
  · exact ⟨transfers_retire, todo_retire⟩

end Copy

/-! ## What is copied -/

/-- The offset is one that the transfer has written. -/
def Transfer.Put (t : Transfer) (x : Nat) : Prop := t.seg.off ≤ x ∧ x < t.seg.off + t.put

instance (t : Transfer) (x : Nat) : Decidable (t.Put x) := by
  unfold Transfer.Put
  infer_instance

/-- The buffer holds the source up to where a read has come, and no write leaves the
    segment. -/
structure Transfer.Sound (src : Bytes) (t : Transfer) : Prop where
  got : ∀ j < t.got, byteAt t.buf j = byteAt src (t.seg.off + j)
  put : t.put ≤ t.seg.len

theorem Transfer.Put.has {src : Bytes} {t : Transfer} {x : Nat} (put : t.Put x)
    (sound : t.Sound src) : t.seg.Has x := by
  have ends := sound.put
  simp only [Transfer.Put, Segment.Has] at *
  omega

/-- What holds of the destination, the transfers that were begun, and the segments left. -/
structure Copied (src old dest : Bytes) (transfers : Fin n → List Transfer)
    (todo : Fin n → List Segment) : Prop where
  parts : ∀ i : Fin n, segments n src.length i = (transfers i).map Transfer.seg ++ todo i
  sound : ∀ i, ∀ t ∈ transfers i, t.Sound src
  written : ∀ i, ∀ t ∈ transfers i, ∀ x, t.Put x →
    x < dest.length ∧ byteAt dest x = byteAt t.buf (x - t.seg.off)
  others : ∀ x, (∀ i, ∀ t ∈ transfers i, ¬ t.Put x) → byteAt dest x = byteAt old x
  length : old.length ≤ dest.length ∧ dest.length ≤ max old.length src.length

namespace Copied

variable {src old dest : Bytes} {transfers : Fin n → List Transfer} {todo : Fin n → List Segment}
  {i : Fin n} {past : List Transfer} {t t' : Transfer} {x : Nat}

/-- A thread that gets another last transfer has that one and those before it. -/
theorem mem_update {other : Transfer} {j : Fin n}
    (inside : other ∈ Function.update transfers i (past ++ [t']) j) :
    (j ≠ i ∧ other ∈ transfers j) ∨ (j = i ∧ (other ∈ past ∨ other = t')) := by
  by_cases same : j = i
  · subst same
    rw [Function.update_self, List.mem_append, List.mem_singleton] at inside
    exact .inr ⟨rfl, inside⟩
  · rw [Function.update_of_ne same] at inside
    exact .inl ⟨same, inside⟩

theorem init : Copied src old old (fun _ : Fin n => []) (fun i => segments n src.length i) where
  parts i := rfl
  sound := by simp
  written := by simp
  others x _ := rfl
  length := ⟨le_rfl, le_max_left _ _⟩

theorem here (copied : Copied src old dest transfers todo) (inside : t ∈ transfers i) :
    t.seg ∈ segments n src.length i := by
  rw [copied.parts]
  exact List.mem_append_left _ (List.mem_map_of_mem inside)

/-- What the last transfer of a thread has in its segment no other one has. -/
theorem owner (copied : Copied src old dest transfers todo) (last : transfers i = past ++ [t])
    (has : t.seg.Has x) :
    (∀ j, j ≠ i → ∀ other ∈ transfers j, ¬ other.seg.Has x) ∧
      ∀ other ∈ past, ¬ other.seg.Has x := by
  have mine := copied.here (show t ∈ transfers i by simp [last])
  have once : ((past ++ [t]).map Transfer.seg ++ todo i).Nodup :=
    last ▸ copied.parts i ▸ segments_nodup
  refine ⟨fun j ne other inside has' => ?_, fun other inside has' => ?_⟩
  · exact ne (Fin.ext (segments_apart i.isLt j.isLt mine (copied.here inside) has has').1).symm
  · have theirs := copied.here (show other ∈ transfers i by simp [last, inside])
    have same := (segments_apart i.isLt i.isLt mine theirs has has').2
    rw [List.map_append, List.nodup_append, List.nodup_append] at once
    exact once.1.2.2 other.seg (List.mem_map_of_mem inside) t.seg (by simp) same.symm

/-- A thread begins with its next segment. -/
theorem begin_ (copied : Copied src old dest transfers todo) {seg : Segment} {rest : List Segment}
    (next : todo i = seg :: rest) (buf : Bytes) :
    Copied src old dest (Function.update transfers i (transfers i ++ [⟨seg, buf, 0, 0⟩]))
      (Function.update todo i rest) where
  parts j := by
    by_cases same : j = i
    · subst same
      simp [copied.parts, next]
    · simp [copied.parts, same]
  sound j other inside := by
    rcases mem_update inside with ⟨_, before⟩ | ⟨rfl, before | rfl⟩
    · exact copied.sound j other before
    · exact copied.sound j other before
    · exact ⟨fun _ none_ => absurd none_ (Nat.not_lt_zero _), Nat.zero_le _⟩
  written j other inside x put := by
    rcases mem_update inside with ⟨_, before⟩ | ⟨rfl, before | rfl⟩
    · exact copied.written j other before x put
    · exact copied.written j other before x put
    · exact absurd put.2 (Nat.not_lt.mpr put.1)
  others x none_ := copied.others x fun j other inside => by
    refine none_ j other ?_
    by_cases same : j = i
    · subst same
      simp [inside]
    · simpa [same] using inside
  length := copied.length

/-- The last transfer of a thread goes on: what it has written before is still there. -/
theorem go_on (copied : Copied src old dest transfers todo) (last : transfers i = past ++ [t])
    {dest' : Bytes} (seg : t'.seg = t.seg) (sound : t'.Sound src)
    (bytes : ∀ x, byteAt dest' x =
      if t'.Put x then byteAt t'.buf (x - t'.seg.off) else byteAt dest x)
    (length : dest.length ≤ dest'.length ∧ dest'.length ≤ max dest.length src.length)
    (reached : ∀ x, t'.Put x → x < dest'.length) (kept : ∀ x, t.Put x → t'.Put x) :
    Copied src old dest' (Function.update transfers i (past ++ [t'])) todo where
  parts j := by
    by_cases same : j = i
    · subst same
      simp [copied.parts, last, seg]
    · simp [copied.parts, same]
  sound j other inside := by
    rcases mem_update inside with ⟨_, before⟩ | ⟨rfl, before | rfl⟩
    · exact copied.sound j other before
    · exact copied.sound j other (by simp [last, before])
    · exact sound
  written j other inside x put := by
    have apart : other ∈ transfers j → ¬ t'.Put x → x < dest'.length ∧
        byteAt dest' x = byteAt other.buf (x - other.seg.off) := by
      intro before untouched
      obtain ⟨below, holds⟩ := copied.written j other before x put
      exact ⟨below.trans_le length.1, by rw [bytes, if_neg untouched, holds]⟩
    have owner := fun touched : t'.Put x => copied.owner last (seg ▸ touched.has sound)
    rcases mem_update inside with ⟨ne, before⟩ | ⟨rfl, before | rfl⟩
    · exact apart before fun touched =>
        (owner touched).1 j ne other before (put.has (copied.sound j other before))
    · have inside' : other ∈ transfers j := by simp [last, before]
      exact apart inside' fun touched =>
        (owner touched).2 other before (put.has (copied.sound j other inside'))
    · exact ⟨reached x put, by rw [bytes, if_pos put]⟩
  others x none_ := by
    have untouched := none_ i t' (by simp)
    rw [bytes, if_neg untouched]
    refine copied.others x fun j other inside put => ?_
    by_cases same : j = i
    · subst same
      rw [last, List.mem_append, List.mem_singleton] at inside
      rcases inside with before | rfl
      · exact none_ j other (by simp [before]) put
      · exact untouched (kept x put)
    · exact none_ j other (by simpa [same] using inside) put
  length := by
    have before := copied.length
    omega

/-- A read puts the beginning of the segment into the buffer, over whatever is there. -/
theorem pread (copied : Copied src old dest transfers todo) (last : transfers i = past ++ [t])
    (fresh : t.put = 0) {rd : Nat} (some_ : rd ≤ min t.seg.len (src.length - t.seg.off)) :
    Copied src old dest
      (Function.update transfers i (past ++ [{ t with
        buf := (src.drop t.seg.off).take rd ++ t.buf.drop rd
        got := max t.got rd }])) todo := by
  have sound := copied.sound i t (by simp [last])
  have front : ((src.drop t.seg.off).take rd).length = rd := by
    simp only [List.length_take, List.length_drop]
    omega
  have unwritten : ∀ buf got x, ¬ (⟨t.seg, buf, got, t.put⟩ : Transfer).Put x := by
    intro buf got x put
    simp only [Transfer.Put, fresh] at put
    omega
  refine copied.go_on last rfl ⟨fun j less => ?_, sound.put⟩
    (fun x => (if_neg (unwritten _ _ x)).symm)
    ⟨le_rfl, le_max_left _ _⟩ (fun x put => absurd put (unwritten _ _ x))
    fun x put => absurd put (unwritten _ _ x)
  dsimp only at less ⊢
  rw [byteAt_append, front]
  by_cases inside : j < rd
  · rw [if_pos inside, byteAt_take, if_pos inside, byteAt_drop]
  · rw [if_neg inside, byteAt_drop, Nat.add_sub_of_le (Nat.not_lt.mp inside)]
    exact sound.got j (by omega)

/-- A write takes the beginning of the buffer, of which some may be in the file already. -/
theorem pwrite (copied : Copied src old dest transfers todo) (last : transfers i = past ++ [t])
    {wr : Nat} (positive : 0 < wr) (some_ : wr ≤ t.buf.length) (size : t.buf.length = t.seg.len) :
    Copied src old (Files.pwrite dest t.seg.off (t.buf.take wr))
      (Function.update transfers i (past ++ [{ t with put := max t.put wr }])) todo := by
  have inside : t ∈ transfers i := by simp [last]
  have sound := copied.sound i t inside
  have ends := segments_inside i.isLt (copied.here inside)
  have length : (t.buf.take wr).length = wr := by
    rw [List.length_take]
    omega
  have nonempty : t.buf.take wr ≠ [] := List.ne_nil_of_length_pos (by omega)
  have total := @length_pwrite dest (t.buf.take wr) t.seg.off nonempty
  rw [length] at total
  refine copied.go_on last rfl ⟨sound.got, ?_⟩ (fun x => ?_) ?_ (fun x put => ?_) fun x put => ?_
  · have before := sound.put
    dsimp only
    omega
  · rw [byteAt_pwrite, length]
    by_cases now : t.seg.off ≤ x ∧ x < t.seg.off + wr
    · have put : ({ t with put := max t.put wr } : Transfer).Put x := by
        simp only [Transfer.Put]
        omega
      rw [if_pos now, if_pos put, byteAt_take, if_pos (by omega)]
    · rw [if_neg now]
      split
      · rename_i put
        refine (copied.written i t inside x ?_).2
        simp only [Transfer.Put] at put ⊢
        omega
      · rfl
  · omega
  · have before := copied.written i t inside x
    simp only [Transfer.Put] at put before
    omega
  · simp only [Transfer.Put] at put ⊢
    omega

end Copied

/-! ## Every run -/

/-- What a thread has at hand: a buffer as long as its segment, and while it reads nothing
    of it is written. -/
inductive CopyPc.Live : CopyPc → Prop where
  | between {todo} : Live (.between todo)
  | reading {t tr todo} : t.buf.length = t.seg.len → t.put = 0 → Live (.reading t tr todo)
  | writing {t nr tw todo} : t.buf.length = t.seg.len → Live (.writing t nr tw todo)
  | astray {t todo} : Live (.astray t todo)

structure CopyInv (src old : Bytes) (s : Copy n) : Prop where
  copied : Copied src old s.dest s.transfers s.todo
  live : ∀ i, (s.pc i).Live

namespace CopyInv

variable {src old : Bytes} {s s' : Copy n} {i : Fin n} {t : Transfer} {pc : CopyPc}
  {rest : List Segment}

theorem live_moveTo (live : ∀ j, (s.pc j).Live) (here : pc.Live) (j : Fin n) :
    ((s.moveTo i pc).pc j).Live := by
  by_cases same : j = i
  · subst same
    simpa [Copy.moveTo] using here
  · simpa [Copy.moveTo, same] using live j

theorem live_retire (live : ∀ j, (s.pc j).Live) (j : Fin n) : ((s.retire i t rest).pc j).Live := by
  have moved : (s.retire i t rest).pc = (s.moveTo i (.between rest)).pc := rfl
  rw [moved]
  exact live_moveTo live .between j

theorem live_fdReadReturns (live : ∀ j, (s.pc j).Live) (size : t.buf.length = t.seg.len) (tr : Nat)
    (j : Fin n) : ((s.fdReadReturns i t tr rest).pc j).Live := by
  rcases @Copy.fdReadReturns_cases n s i t rest tr with is | is
  · rw [is]
    exact live_moveTo live (.writing size) j
  · rw [is]
    exact live_retire live j

theorem live_fdReadLoops (live : ∀ j, (s.pc j).Live) (size : t.buf.length = t.seg.len)
    (fresh : t.put = 0) (tr : Nat) (j : Fin n) : ((s.fdReadLoops i t tr rest).pc j).Live := by
  unfold Copy.fdReadLoops
  split
  · exact live_moveTo live (.reading size fresh) j
  · exact live_fdReadReturns live size tr j

theorem live_fdWriteLoops (live : ∀ j, (s.pc j).Live) (size : t.buf.length = t.seg.len)
    (nr tw : Nat) (j : Fin n) : ((s.fdWriteLoops i t nr tw rest).pc j).Live := by
  unfold Copy.fdWriteLoops
  split
  · exact live_moveTo live (.writing size) j
  · exact live_retire live j

theorem init :
    CopyInv src old (⟨old, fun i => .between (segments n src.length i), fun _ => []⟩ : Copy n) where
  copied := Copied.init
  live _ := .between

/-- What the thread is at is its last transfer. -/
theorem last (at_ : s.pc i = pc) (current : pc.current = [t]) :
    s.transfers i = s.done i ++ [t] := by
  rw [Copy.transfers, at_, current]

theorem update_todo (at_ : s.pc i = pc) (todo : pc.todo = rest) :
    Function.update s.todo i rest = s.todo := by
  rw [← todo, ← at_]
  exact Function.update_eq_self i s.todo

/-- With a transfer at hand, leaving it as it is changes nothing. -/
theorem same_view (inv : CopyInv src old s) (at_ : s.pc i = pc) (current : pc.current = [t])
    (todo : pc.todo = rest) :
    Copied src old s.dest (Function.update s.transfers i (s.done i ++ [t]))
      (Function.update s.todo i rest) := by
  rw [← last at_ current, Function.update_eq_self, update_todo at_ todo]
  exact inv.copied

theorem retire (inv : CopyInv src old s) (at_ : s.pc i = pc) (current : pc.current = [t])
    (todo : pc.todo = rest) : CopyInv src old (s.retire i t rest) := by
  refine ⟨?_, live_retire inv.live⟩
  rw [Copy.transfers_retire, Copy.todo_retire]
  exact inv.same_view at_ current todo

/-- Before its next segment a thread has no other transfer than those behind it. -/
theorem begin_ {seg : Segment} (inv : CopyInv src old s) (at_ : s.pc i = .between (seg :: rest))
    (buf : Bytes) :
    Copied src old s.dest (Function.update s.transfers i (s.done i ++ [⟨seg, buf, 0, 0⟩]))
      (Function.update s.todo i rest) := by
  have next : s.todo i = seg :: rest := by rw [Copy.todo, at_, CopyPc.todo]
  have past : s.transfers i = s.done i := by simp [Copy.transfers, at_, CopyPc.current]
  have begun := inv.copied.begin_ next buf
  rw [past] at begun
  exact begun

theorem pread (inv : CopyInv src old s) {tr rd : Nat} (at_ : s.pc i = .reading t tr rest)
    (some_ : rd ≤ min t.seg.len (src.length - t.seg.off)) :
    CopyInv src old (s.fdReadLoops i
      { t with
        buf := (src.drop t.seg.off).take rd ++ t.buf.drop rd
        got := max t.got rd }
      (tr + rd) rest) := by
  obtain ⟨size, fresh⟩ : t.buf.length = t.seg.len ∧ t.put = 0 := by
    have live := inv.live i
    rw [at_] at live
    cases live
    exact ⟨‹_›, ‹_›⟩
  have length : ((src.drop t.seg.off).take rd ++ t.buf.drop rd).length = t.seg.len := by
    simp only [List.length_append, List.length_take, List.length_drop]
    omega
  refine ⟨?_, @live_fdReadLoops n s i
    { t with buf := (src.drop t.seg.off).take rd ++ t.buf.drop rd, got := max t.got rd } rest
    inv.live length fresh (tr + rd)⟩
  obtain ⟨dest, transfers, left⟩ := @Copy.fdReadLoops_view n s i
    { t with buf := (src.drop t.seg.off).take rd ++ t.buf.drop rd, got := max t.got rd } rest
    (tr + rd)
  have same := update_todo at_ (show CopyPc.todo _ = rest from rfl)
  rw [dest, transfers, left, same]
  exact inv.copied.pread (last at_ rfl) fresh some_

theorem pwrite (inv : CopyInv src old s) {nr tw wr : Nat} (at_ : s.pc i = .writing t nr tw rest)
    (room : nr ≤ t.buf.length) (positive : 0 < wr) (some_ : wr ≤ nr) :
    CopyInv src old
      { s.fdWriteLoops i { t with put := max t.put wr } nr (tw + wr) rest with
        dest := Files.pwrite s.dest t.seg.off (t.buf.take wr) } := by
  have size : t.buf.length = t.seg.len := by
    have live := inv.live i
    rw [at_] at live
    cases live
    assumption
  refine ⟨?_, @live_fdWriteLoops n s i { t with put := max t.put wr } rest inv.live size nr
    (tw + wr)⟩
  obtain ⟨transfers, left⟩ :=
    @Copy.fdWriteLoops_view n s i { t with put := max t.put wr } rest nr (tw + wr)
  have written := inv.copied.pwrite (last at_ rfl) positive (some_.trans room) size
  have same := update_todo at_ (show CopyPc.todo _ = rest from rfl)
  rw [← same, ← left, ← transfers] at written
  exact written

theorem step (inv : CopyInv src old s) (taken : CopyStep src s i s') : CopyInv src old s' := by
  cases taken with
  | malloc buf at_ =>
      refine ⟨?_, live_moveTo inv.live (.reading ‹_› rfl)⟩
      rw [Copy.transfers_moveTo, Copy.todo_moveTo]
      exact inv.begin_ at_ buf
  | failMalloc at_ =>
      refine ⟨?_, live_retire inv.live⟩
      rw [Copy.transfers_retire, Copy.todo_retire]
      exact inv.begin_ at_ []
  | pread rd at_ _ some_ => exact inv.pread at_ some_
  | @eof t tr todo at_ =>
      obtain ⟨dest, transfers, left⟩ := @Copy.fdReadReturns_view n s i t todo tr
      refine ⟨?_, live_fdReadReturns inv.live ?_ tr⟩
      · rw [dest, transfers, left]
        exact inv.same_view at_ rfl rfl
      · have live := inv.live i
        rw [at_] at live
        cases live
        assumption
  | failRead at_ => exact inv.retire at_ rfl rfl
  | pwrite wr at_ room positive some_ => exact inv.pwrite at_ room positive some_
  | astray at_ =>
      refine ⟨?_, live_moveTo inv.live .astray⟩
      rw [Copy.transfers_moveTo, Copy.todo_moveTo]
      exact inv.same_view at_ rfl rfl
  | failWrite at_ => exact inv.retire at_ rfl rfl

theorem reachable (reach : (mtCopy n src old).Reachable s) : CopyInv src old s := by
  apply reach.invariant
  · rintro s rfl
    exact init
  · exact fun s l s' _ inv taken => inv.step taken

end CopyInv

/-- What the destination holds when the threads are joined. -/
structure Copy.Delivered (src old : Bytes) (s : Copy n) : Prop where
  /-- Every segment has had its transfer. -/
  parts : ∀ i : Fin n, (s.done i).map Transfer.seg = segments n src.length i
  /-- A byte is the source's up to where both a read and a write have come, what was in the
      buffer where only a write has, and what was there before where none has. -/
  bytes : ∀ i, ∀ t ∈ s.done i, ∀ j < t.seg.len, byteAt s.dest (t.seg.off + j) =
    if t.put ≤ j then byteAt old (t.seg.off + j)
    else if j < t.got then byteAt src (t.seg.off + j) else byteAt t.buf j
  behind : ∀ x, src.length ≤ x → byteAt s.dest x = byteAt old x
  whole : (∀ i, ∀ t ∈ s.done i, t.seg.len ≤ t.got ∧ t.seg.len ≤ t.put) →
    s.dest = src ++ old.drop src.length

section joined

variable {src old dest : Bytes} {transfers : Fin n → List Transfer}

/-- With every segment begun, a byte tells how far its transfer has come. -/
theorem Copied.bytes (copied : Copied src old dest transfers fun _ => []) (i : Fin n)
    {t : Transfer} (inside : t ∈ transfers i) {j : Nat} (less : j < t.seg.len) :
    byteAt dest (t.seg.off + j) =
      if t.put ≤ j then byteAt old (t.seg.off + j)
      else if j < t.got then byteAt src (t.seg.off + j) else byteAt t.buf j := by
  have sound := copied.sound i t inside
  split
  · rename_i unwritten
    refine copied.others _ fun j' other inside' put => ?_
    have has : t.seg.Has (t.seg.off + j) := ⟨by omega, by omega⟩
    have same := segments_apart i.isLt j'.isLt (copied.here inside) (copied.here inside') has
      (put.has (copied.sound j' other inside'))
    obtain rfl : i = j' := Fin.ext same.1
    have parts := copied.parts i
    rw [List.append_nil] at parts
    have once : ((transfers i).map Transfer.seg).Nodup := parts ▸ segments_nodup
    obtain rfl := List.inj_on_of_nodup_map once inside inside' same.2
    simp only [Transfer.Put] at put
    omega
  · have put : t.Put (t.seg.off + j) := ⟨by omega, by omega⟩
    rw [(copied.written i t inside _ put).2, Nat.add_sub_cancel_left]
    split
    · exact sound.got j ‹_›
    · rfl

theorem Copied.behind (copied : Copied src old dest transfers fun _ => []) {x : Nat}
    (past : src.length ≤ x) : byteAt dest x = byteAt old x := by
  refine copied.others x fun i t inside put => ?_
  have ends := segments_inside i.isLt (copied.here inside)
  have has := put.has (copied.sound i t inside)
  simp only [Segment.Has] at has
  omega

/-- The segments cover the source, so that no byte of it is missing. -/
theorem Copied.whole (copied : Copied src old dest transfers fun _ => []) (positive : 0 < n)
    (whole : ∀ i, ∀ t ∈ transfers i, t.seg.len ≤ t.got ∧ t.seg.len ≤ t.put) :
    dest = src ++ old.drop src.length := by
  have all : ∀ x, x < src.length → x < dest.length ∧ byteAt dest x = byteAt src x := by
    intro x below
    obtain ⟨i, less, seg, inside, has⟩ := segments_cover positive below
    rw [copied.parts ⟨i, less⟩, List.append_nil] at inside
    obtain ⟨t, member, rfl⟩ := List.mem_map.mp inside
    obtain ⟨got, put⟩ := whole ⟨i, less⟩ t member
    obtain ⟨j, rfl⟩ := Nat.exists_eq_add_of_le has.1
    have shorter : j < t.seg.len := Nat.lt_of_add_lt_add_left has.2
    refine ⟨(copied.written ⟨i, less⟩ t member _ ⟨by omega, by omega⟩).1, ?_⟩
    rw [copied.bytes ⟨i, less⟩ member shorter, if_neg (by omega), if_pos (by omega)]
  refine ext_byteAt ?_ fun x => ?_
  · obtain ⟨atLeast, atMost⟩ := copied.length
    have long : src.length ≤ dest.length := by
      by_contra short
      exact absurd (all dest.length (by omega)).1 (lt_irrefl _)
    simp only [List.length_append, List.length_drop]
    omega
  · rw [byteAt_append, byteAt_drop]
    by_cases below : x < src.length
    · rw [if_pos below, (all x below).2]
    · have past := Nat.not_lt.mp below
      rw [if_neg below, Nat.add_sub_of_le past, copied.behind past]

end joined

end SysProg.Book
