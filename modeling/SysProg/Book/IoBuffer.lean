import SysProg.Lib.CString
import SysProg.Lib.Locking

/-! # Threads that copy blocks from one stream to another

In `mt_iobuf_mtx` every thread reads a block into one global buffer and writes
the buffer, `numio` times; the mutex is held for each `fread` and for each
`fwrite`, but not from one to the other.  In `mt_iobuf_rfct` and `mt_iobuf_tls`
every thread has a buffer of its own.  The stream that is read, `/dev/urandom`,
never ends.
-/

namespace SysProg.Book

open CString Locking Transition Relation

variable {τ : Type} [DecidableEq τ]

/-- `NREAD` -/
def nread : Nat := 512

/-- What the stream that is read holds from a position on, for one `fread`. -/
def blockFrom (source : Nat → UInt8) (position : Nat) : Bytes :=
  (List.range nread).map fun i => source (position + i)

/-- What the `k`-th `fread` gets. -/
def block (source : Nat → UInt8) (k : Nat) : Bytes := blockFrom source (k * nread)

/-- The contents of a file that is written block by block, with who wrote each. -/
def contents (source : Nat → UInt8) (blocks : List (τ × Nat)) : Bytes :=
  blocks.flatMap fun entry => block source entry.2

/-- A block more of one thread leaves the counts of the others. -/
theorem count_others {t u : τ} (other : u ≠ t) (blocks : List (τ × Nat)) (k : Nat) :
    ((blocks ++ [(t, k)]).map Prod.fst).count u = (blocks.map Prod.fst).count u := by
  rw [List.map_append, List.count_append, List.map_singleton, List.count_singleton,
    if_neg (by simpa using Ne.symm other), Nat.add_zero]

/-! ## One buffer for all threads -/

/-- The two streams and `gbuf`. -/
structure Streams where
  position : Nat
  gbuf : Nat → UInt8
  written : Bytes

/-- Where a thread stands in `testit_mt_mtx`, with the passes that are left. -/
inductive IoPc where
  | before (left : Nat)
  /-- In `fread`, with `i` bytes stored. -/
  | reading (i left : Nat)
  | filled (left : Nat)
  /-- In `fwrite`, with `i` bytes taken. -/
  | writing (i left : Nat)
  deriving DecidableEq

inductive IoStep (source : Nat → UInt8) : IoPc × Streams → IoPc × Streams → Prop where
  | read {i left s} : i < nread →
      IoStep source (.reading i left, s) (.reading (i + 1) left,
        { s with
          position := s.position + 1
          gbuf := Function.update s.gbuf i (source s.position) })
  | write {i left s} : i < nread →
      IoStep source (.writing i left, s) (.writing (i + 1) left,
        { s with written := s.written ++ [s.gbuf i] })

def mtx (source : Nat → UInt8) : Threads τ Streams IoPc where
  aside _ _ _ := False
  enter _ k k' := (∃ left, k = .before (left + 1) ∧ k' = .reading 0 left) ∨
    ∃ left, k = .filled left ∧ k' = .writing 0 left
  inside _ := IoStep source
  leave _ k k' := (∃ left, k = .reading nread left ∧ k' = .filled left) ∨
    ∃ left, k = .writing nread left ∧ k' = .before left

def Streams.opened (gbuf : Nat → UInt8) : Streams := ⟨0, gbuf, []⟩

/-- The threads of `mt_iobuf_mtx`; `gbuf` is what `malloc` gives. -/
def mtxSystem (source gbuf : Nat → UInt8) (numio : τ → Nat) :
    System (Locking.State τ Streams IoPc) τ :=
  system (mtx source) true (.opened gbuf) fun t => .before (numio t)

variable {source gbuf : Nat → UInt8} {numio : τ → Nat}

/-- `fread` after `i` bytes. -/
theorem read_part {left : Nat} {s : Streams} {x : IoPc × Streams}
    (ran : ReflTransGen (IoStep source) (.reading 0 left, s) x) :
    ∃ i ≤ nread, x.1 = .reading i left ∧ x.2.position = s.position + i ∧
      x.2.written = s.written ∧ ∀ j < i, x.2.gbuf j = source (s.position + j) := by
  induction ran with
  | refl => exact ⟨0, Nat.zero_le _, rfl, rfl, rfl, fun j below => absurd below (Nat.not_lt_zero j)⟩
  | tail _ taken ih =>
      obtain ⟨i, _, at_, position, written, stored⟩ := ih
      cases taken with
      | @read i' left' s' below =>
          obtain ⟨rfl, rfl⟩ := IoPc.reading.inj at_
          refine ⟨i' + 1, below, rfl, by simp only at position ⊢; omega, written, fun j less => ?_⟩
          by_cases last : j = i'
          · subst last
            simp only at position
            simp only [Function.update_self, position]
          · simpa [last] using stored j (by omega)
      | write below => cases at_

/-- `fwrite` after `i` bytes. -/
theorem write_part {left : Nat} {s : Streams} {x : IoPc × Streams}
    (ran : ReflTransGen (IoStep source) (.writing 0 left, s) x) :
    ∃ i ≤ nread, x = (.writing i left,
      { s with written := s.written ++ (List.range i).map s.gbuf }) := by
  induction ran with
  | refl => exact ⟨0, Nat.zero_le _, by simp⟩
  | tail _ taken ih =>
      obtain ⟨i, _, rfl⟩ := ih
      cases taken with
      | write below => exact ⟨i + 1, below, by simp [List.range_succ]⟩

/-- Between the sections: who has read and written which blocks.  The buffer holds
    the block that was read last. -/
structure Blockwise (source : Nat → UInt8) (numio : τ → Nat) (readers : List τ)
    (blocks : List (τ × Nat)) (b : Between τ Streams IoPc) : Prop where
  position : b.shared.position = readers.length * nread
  written : b.shared.written = contents source blocks
  gbuf : ∀ last, readers.length = last + 1 →
    (List.range nread).map b.shared.gbuf = block source last
  sorted : (blocks.map Prod.snd).Pairwise (· ≤ ·)
  below : ∀ entry ∈ blocks, entry.2 < readers.length
  stage : ∀ t, (∃ left, b.loc t = .before left ∧ left + readers.count t = numio t ∧
      left + (blocks.map Prod.fst).count t = numio t) ∨
    ∃ left, b.loc t = .filled left ∧ t ∈ readers ∧ left + readers.count t = numio t ∧
      left + 1 + (blocks.map Prod.fst).count t = numio t

/-- A whole `fread`. -/
theorem Blockwise.read {readers : List τ} {blocks : List (τ × Nat)} {b : Between τ Streams IoPc}
    {t : τ} {left : Nat} {k : IoPc} {shared : Streams} {done : List (τ × IoPc)}
    (copied : Blockwise source numio readers blocks b) (before : b.loc t = .before (left + 1))
    (ran : ReflTransGen (IoStep source) (.reading 0 left, b.shared) (k, shared))
    (whole : k = .reading nread left) :
    Blockwise source numio (readers ++ [t]) blocks
      ⟨shared, Function.update b.loc t (.filled left), done⟩ := by
  subst whole
  obtain ⟨i, _, at_, position, written, stored⟩ := read_part ran
  obtain ⟨rfl, _⟩ := IoPc.reading.inj at_
  simp only at position written stored
  refine ⟨?_, by rw [← copied.written]; exact written, fun last length => ?_, copied.sorted,
    fun entry inside => ?_, fun u => ?_⟩
  · rw [List.length_append, List.length_singleton, Nat.add_mul, Nat.one_mul, ← copied.position]
    exact position
  · obtain rfl : readers.length = last := by simpa using length
    rw [block, blockFrom, ← copied.position]
    exact List.map_congr_left fun j inside => stored j (List.mem_range.mp inside)
  · have below := copied.below entry inside
    simp only [List.length_append, List.length_singleton]
    omega
  · by_cases same : u = t
    · subst same
      rcases copied.stage u with ⟨left', at', reads, writes⟩ | ⟨left', at', _⟩
      · rw [before, IoPc.before.injEq] at at'
        subst at'
        refine .inr ⟨left, Function.update_self .., by simp, ?_, by omega⟩
        rw [List.count_append, List.count_singleton_self]
        omega
      · rw [before] at at'
        cases at'
    · have others : (readers ++ [t]).count u = readers.count u := by
        rw [List.count_append, List.count_singleton, if_neg (by simpa using Ne.symm same),
          Nat.add_zero]
      simp only [Function.update_of_ne same, others]
      refine (copied.stage u).imp_right ?_
      rintro ⟨left', at', inside, counts⟩
      exact ⟨left', at', List.mem_append_left _ inside, counts⟩

/-- A whole `fwrite`. -/
theorem Blockwise.write {readers : List τ} {blocks : List (τ × Nat)} {b : Between τ Streams IoPc}
    {t : τ} {left : Nat} {k : IoPc} {shared : Streams} {done : List (τ × IoPc)}
    (copied : Blockwise source numio readers blocks b) (filled : b.loc t = .filled left)
    (ran : ReflTransGen (IoStep source) (.writing 0 left, b.shared) (k, shared))
    (whole : k = .writing nread left) :
    Blockwise source numio readers (blocks ++ [(t, readers.length - 1)])
      ⟨shared, Function.update b.loc t (.before left), done⟩ := by
  subst whole
  obtain ⟨i, _, is⟩ := write_part ran
  obtain ⟨at_, rfl⟩ := Prod.mk.inj is
  obtain ⟨rfl, _⟩ := IoPc.writing.inj at_
  have mine : t ∈ readers ∧ left + readers.count t = numio t ∧
      left + 1 + (blocks.map Prod.fst).count t = numio t := by
    rcases copied.stage t with ⟨left', at', _⟩ | ⟨left', at', rest⟩
    · rw [filled] at at'
      cases at'
    · rw [filled, IoPc.filled.injEq] at at'
      subst at'
      exact rest
  obtain ⟨reader, reads, writes⟩ := mine
  obtain ⟨last, length⟩ := Nat.exists_eq_succ_of_ne_zero (List.length_pos_of_mem reader).ne'
  have newest : readers.length - 1 = last := by omega
  refine ⟨copied.position, ?_, copied.gbuf, ?_, ?_, fun u => ?_⟩
  · simp only [copied.written, copied.gbuf last length, newest, contents, List.flatMap_append,
      List.flatMap_singleton]
  · rw [List.map_append, List.pairwise_append]
    refine ⟨copied.sorted, by simp, fun x inside y new => ?_⟩
    obtain ⟨entry, member, rfl⟩ := List.mem_map.mp inside
    have below := copied.below entry member
    simp only [List.map_singleton, List.mem_singleton] at new
    omega
  · intro entry inside
    rcases List.mem_append.mp inside with old | new
    · exact copied.below entry old
    · rw [List.mem_singleton] at new
      rw [new]
      simp only
      omega
  · by_cases same : u = t
    · subst same
      refine .inl ⟨left, Function.update_self .., reads, ?_⟩
      rw [List.map_append, List.count_append, List.map_singleton, List.count_singleton_self]
      omega
    · simp only [Function.update_of_ne same, count_others same]
      exact copied.stage u

theorem Blockwise.step {readers : List τ} {blocks : List (τ × Nat)} {b b' : Between τ Streams IoPc}
    {t : τ} (copied : Blockwise source numio readers blocks b) (taken : Whole (mtx source) b t b') :
    ∃ readers blocks, Blockwise source numio readers blocks b' := by
  cases taken with
  | aside moved => exact moved.elim
  | whole enter ran leave =>
      rcases enter with ⟨left, before, rfl⟩ | ⟨left, filled, rfl⟩
      · obtain ⟨i, _, at_, _⟩ := read_part ran
        rcases leave with ⟨left', is, rfl⟩ | ⟨left', is, _⟩
        · obtain ⟨_, rfl⟩ := IoPc.reading.inj (is.symm.trans at_)
          exact ⟨_, _, copied.read before ran is⟩
        · cases is.symm.trans at_
      · obtain ⟨i, _, at_⟩ := write_part ran
        rcases leave with ⟨left', is, _⟩ | ⟨left', is, rfl⟩
        · cases is.symm.trans (Prod.mk.inj at_).1
        · obtain ⟨_, rfl⟩ := IoPc.writing.inj (is.symm.trans (Prod.mk.inj at_).1)
          exact ⟨_, _, copied.write filled ran is⟩

theorem Blockwise.opened (source gbuf : Nat → UInt8) (numio : τ → Nat) :
    Blockwise source numio [] [] ⟨.opened gbuf, fun t => .before (numio t), []⟩ := by
  refine ⟨by simp [Streams.opened], rfl, fun last none_ => ?_, List.Pairwise.nil, by simp,
    fun t => .inl ⟨numio t, rfl, rfl, rfl⟩⟩
  cases none_

theorem Blockwise.reachable {b : Between τ Streams IoPc}
    (reach : (atomic (mtx source) (.opened gbuf) fun t => .before (numio t)).Reachable b) :
    ∃ readers blocks, Blockwise source numio readers blocks b := by
  apply reach.invariant
  · rintro b rfl
    exact ⟨[], [], .opened source gbuf numio⟩
  · rintro b t b' _ ⟨readers, blocks, copied⟩ taken
    exact copied.step taken

omit [DecidableEq τ] in
/-- A thread inside a section is in the middle of a pass. -/
theorem mtx_inside {k k₁ : IoPc} {s : Streams} {x : IoPc × Streams} {t : τ}
    (enter : (mtx source).enter t k k₁) (ran : ReflTransGen (IoStep source) (k₁, s) x) :
    x.1 ≠ .before 0 := by
  rcases enter with ⟨left, _, rfl⟩ | ⟨left, _, rfl⟩
  · obtain ⟨i, _, at_, _⟩ := read_part ran
    simp [at_]
  · obtain ⟨i, _, at_⟩ := write_part ran
    simp [at_]

/-- The file is made of whole blocks in the order in which they were read, one for
    every pass. -/
theorem mtx_blocks {s : Locking.State τ Streams IoPc}
    (reach : (mtxSystem source gbuf numio).Reachable s) (finished : ∀ t, s.loc t = .before 0) :
    ∃ (readers : List τ) (blocks : List (τ × Nat)),
      s.shared.position = readers.length * nread ∧ s.shared.written = contents source blocks ∧
        (blocks.map Prod.snd).Pairwise (· ≤ ·) ∧ (∀ entry ∈ blocks, entry.2 < readers.length) ∧
        ∀ t, readers.count t = numio t ∧ (blocks.map Prod.fst).count t = numio t := by
  obtain ⟨mid, before, now⟩ := refines reach
  obtain ⟨readers, blocks, copied⟩ := Blockwise.reachable before
  have free : s.Free := by
    intro t
    cases inside : s.since t with
    | none => rfl
    | some k₀ =>
        obtain ⟨_, _, enter, ran⟩ := now.of_inside inside
        exact absurd (finished t) (mtx_inside enter ran)
  obtain rfl := now.of_free free
  refine ⟨readers, blocks, copied.position, copied.written, copied.sorted, copied.below,
    fun t => ?_⟩
  have at_ : s.committed t = .before 0 := (State.committed_of_none (free t)).trans (finished t)
  rcases copied.stage t with ⟨left, at', reads, writes⟩ | ⟨left, at', _⟩
  · rw [show s.committed t = .before left from at', IoPc.before.injEq] at at_
    omega
  · rw [show s.committed t = .filled left from at'] at at_
    cases at_

omit [DecidableEq τ] in
theorem read_runs (source : Nat → UInt8) (left : Nat) (s : Streams) : ∃ s',
    ReflTransGen (IoStep source) (.reading 0 left, s) (.reading nread left, s') := by
  suffices part : ∀ i ≤ nread, ∃ s', ReflTransGen (IoStep source) (.reading 0 left, s)
      (.reading i left, s') from part nread (Nat.le_refl _)
  intro i
  induction i with
  | zero => exact fun _ => ⟨s, .refl⟩
  | succ i ih =>
      intro below
      obtain ⟨s', ran⟩ := ih (Nat.le_of_succ_le below)
      exact ⟨_, ran.tail (.read below)⟩

omit [DecidableEq τ] in
theorem write_runs (source : Nat → UInt8) (left : Nat) (s : Streams) : ∃ s',
    ReflTransGen (IoStep source) (.writing 0 left, s) (.writing nread left, s') := by
  suffices part : ∀ i ≤ nread, ∃ s', ReflTransGen (IoStep source) (.writing 0 left, s)
      (.writing i left, s') from part nread (Nat.le_refl _)
  intro i
  induction i with
  | zero => exact fun _ => ⟨s, .refl⟩
  | succ i ih =>
      intro below
      obtain ⟨s', ran⟩ := ih (Nat.le_of_succ_le below)
      exact ⟨_, ran.tail (.write below)⟩

/-- The next `fread` of a thread between the sections. -/
theorem Blockwise.reads {readers : List τ} {blocks : List (τ × Nat)} {b : Between τ Streams IoPc}
    {start : τ → IoPc} {s₀ : Streams} {t : τ} {left : Nat}
    (copied : Blockwise source numio readers blocks b)
    (reach : (atomic (mtx source) s₀ start).Reachable b) (before : b.loc t = .before (left + 1)) :
    ∃ b', (atomic (mtx source) s₀ start).Reachable b' ∧
      Blockwise source numio (readers ++ [t]) blocks b' ∧
      b'.loc = Function.update b.loc t (.filled left) := by
  obtain ⟨s', ran⟩ := read_runs source left b.shared
  exact ⟨_, reach.step (.whole (.inl ⟨left, before, rfl⟩) ran (.inl ⟨left, rfl, rfl⟩)),
    copied.read before ran rfl, rfl⟩

theorem Blockwise.writes {readers : List τ} {blocks : List (τ × Nat)} {b : Between τ Streams IoPc}
    {start : τ → IoPc} {s₀ : Streams} {t : τ} {left : Nat}
    (copied : Blockwise source numio readers blocks b)
    (reach : (atomic (mtx source) s₀ start).Reachable b) (filled : b.loc t = .filled left) :
    ∃ b', (atomic (mtx source) s₀ start).Reachable b' ∧
      Blockwise source numio readers (blocks ++ [(t, readers.length - 1)]) b' ∧
      b'.loc = Function.update b.loc t (.before left) := by
  obtain ⟨s', ran⟩ := write_runs source left b.shared
  exact ⟨_, reach.step (.whole (.inr ⟨left, filled, rfl⟩) ran (.inr ⟨left, rfl, rfl⟩)),
    copied.write filled ran rfl, rfl⟩

/-- Two threads that read before either of them writes: the first block is lost, and
    the second is in the file twice. -/
theorem mtx_block_lost (source gbuf : Nat → UInt8) :
    ∃ s : Locking.State (Fin 2) Streams IoPc, (mtxSystem source gbuf fun _ => 1).Reachable s ∧
      (∀ t, s.loc t = .before 0) ∧ s.shared.position = 2 * nread ∧
      s.shared.written = block source 1 ++ block source 1 := by
  obtain ⟨b₁, reach₁, copied₁, loc₁⟩ :=
    (Blockwise.opened source gbuf fun _ : Fin 2 => 1).reads (t := 0) (.init rfl) rfl
  obtain ⟨b₂, reach₂, copied₂, loc₂⟩ := copied₁.reads (t := 1) reach₁ (by rw [loc₁]; rfl)
  obtain ⟨b₃, reach₃, copied₃, loc₃⟩ := copied₂.writes (t := 0) reach₂ (by rw [loc₂, loc₁]; rfl)
  obtain ⟨b₄, reach₄, copied₄, loc₄⟩ :=
    copied₃.writes (t := 1) reach₃ (by rw [loc₃, loc₂, loc₁]; rfl)
  refine ⟨_, realizes reach₄, fun t => ?_, copied₄.position, ?_⟩
  · simp only [loc₄, loc₃]
    match t with
    | 0 => rfl
    | 1 => rfl
  · simp [copied₄.written, contents]

/-- With the mutex around each call, the file is made of whole blocks in the order
    in which they were read, one for every pass; but they need not be all the
    blocks. -/
theorem mtx_file (source gbuf : Nat → UInt8) :
    (∀ (numio : τ → Nat) (s : Locking.State τ Streams IoPc),
      (mtxSystem source gbuf numio).Reachable s → (∀ t, s.loc t = .before 0) →
      ∃ (readers : List τ) (blocks : List (τ × Nat)),
        s.shared.position = readers.length * nread ∧ s.shared.written = contents source blocks ∧
          (blocks.map Prod.snd).Pairwise (· ≤ ·) ∧ (∀ entry ∈ blocks, entry.2 < readers.length) ∧
          ∀ t, readers.count t = numio t ∧ (blocks.map Prod.fst).count t = numio t) ∧
    ∃ s : Locking.State (Fin 2) Streams IoPc, (mtxSystem source gbuf fun _ => 1).Reachable s ∧
      (∀ t, s.loc t = .before 0) ∧ s.shared.position = 2 * nread ∧
      s.shared.written = block source 1 ++ block source 1 :=
  ⟨fun _ _ reach finished => mtx_blocks reach finished, mtx_block_lost source gbuf⟩

theorem mtx_file_two : ∃ (s : Locking.State (Fin 2) Streams IoPc) (readers : List (Fin 2))
    (blocks : List (Fin 2 × Nat)),
    (mtxSystem (fun _ => 0) (fun _ => 0) fun _ => 1).Reachable s ∧ (∀ t, s.loc t = .before 0) ∧
      s.shared.position = readers.length * nread ∧ s.shared.written = contents (fun _ => 0) blocks ∧
      (blocks.map Prod.snd).Pairwise (· ≤ ·) ∧ (∀ entry ∈ blocks, entry.2 < readers.length) ∧
      ∀ t, readers.count t = 1 ∧ (blocks.map Prod.fst).count t = 1 := by
  obtain ⟨s, reach, finished, _⟩ := mtx_block_lost (fun _ => 0) fun _ => 0
  obtain ⟨readers, blocks, kept⟩ :=
    (mtx_file (τ := Fin 2) (fun _ => 0) fun _ => 0).1 (fun _ => 1) s reach finished
  exact ⟨s, readers, blocks, reach, finished, kept⟩

/-! ## A buffer for every thread -/

/-- Where a thread stands in `testit_mt_refactored` or `testit_mt_tls`. -/
inductive OwnPc where
  | before (left : Nat)
  /-- With its buffer. -/
  | filled (iobuf : Bytes) (left : Nat)
  deriving DecidableEq

structure Own (τ : Type) where
  position : Nat
  written : Bytes
  loc : τ → OwnPc

/-- A call on a stream is a single step, since the stream has a lock of its own and
    no other thread sees the buffer. -/
inductive OwnStep (source : Nat → UInt8) : Own τ → τ → Own τ → Prop where
  | fread {s : Own τ} {t left} : s.loc t = .before (left + 1) →
      OwnStep source s t
        { s with
          position := s.position + nread
          loc := Function.update s.loc t (.filled (blockFrom source s.position) left) }
  | fwrite {s : Own τ} {t iobuf left} : s.loc t = .filled iobuf left →
      OwnStep source s t
        { s with
          written := s.written ++ iobuf
          loc := Function.update s.loc t (.before left) }

def ownSystem (source : Nat → UInt8) (numio : τ → Nat) : System (Own τ) τ where
  init s := s = ⟨0, [], fun t => .before (numio t)⟩
  step := OwnStep source

/-- Which blocks have been written, and which are still in a buffer. -/
structure Kept (source : Nat → UInt8) (numio : τ → Nat) (reads : Nat) (blocks held : List (τ × Nat))
    (s : Own τ) : Prop where
  position : s.position = reads * nread
  written : s.written = contents source blocks
  all : ((blocks ++ held).map Prod.snd).Perm (List.range reads)
  nodup : (held.map Prod.fst).Nodup
  stage : ∀ t, (∃ left, s.loc t = .before left ∧ t ∉ held.map Prod.fst ∧
      left + (blocks.map Prod.fst).count t = numio t) ∨
    ∃ left k, s.loc t = .filled (block source k) left ∧ (t, k) ∈ held ∧
      left + 1 + (blocks.map Prod.fst).count t = numio t

theorem Kept.step {reads : Nat} {blocks held : List (τ × Nat)} {s s' : Own τ} {t : τ}
    (kept : Kept source numio reads blocks held s) (taken : OwnStep source s t s') :
    ∃ reads blocks held, Kept source numio reads blocks held s' := by
  cases taken with
  | @fread left before =>
      have mine : t ∉ held.map Prod.fst ∧ left + 1 + (blocks.map Prod.fst).count t = numio t := by
        rcases kept.stage t with ⟨left', at_, rest⟩ | ⟨left', k, at_, _⟩
        · rw [before, OwnPc.before.injEq] at at_
          subst at_
          exact rest
        · rw [before] at at_
          cases at_
      obtain ⟨fresh, counts⟩ := mine
      refine ⟨reads + 1, blocks, held ++ [(t, reads)], ?_, kept.written, ?_, ?_, fun u => ?_⟩
      · rw [Nat.add_mul, Nat.one_mul, ← kept.position]
      · rw [← List.append_assoc, List.map_append, List.range_succ]
        exact kept.all.append_right _
      · rw [List.map_append, List.nodup_append]
        refine ⟨kept.nodup, by simp, fun u inside v new => ?_⟩
        obtain rfl : v = t := by simpa using new
        rintro rfl
        exact fresh inside
      · by_cases same : u = t
        · subst same
          refine .inr ⟨left, reads, ?_, by simp, counts⟩
          simp only [Function.update_self, kept.position, block]
        · simpa [same] using kept.stage u
  | @fwrite iobuf left filled =>
      have mine : ∃ k, iobuf = block source k ∧ (t, k) ∈ held ∧
          left + 1 + (blocks.map Prod.fst).count t = numio t := by
        rcases kept.stage t with ⟨left', at_, _⟩ | ⟨left', k, at_, rest⟩
        · rw [filled] at at_
          cases at_
        · rw [filled, OwnPc.filled.injEq] at at_
          obtain ⟨is, same⟩ := at_
          subst same
          exact ⟨k, is, rest⟩
      obtain ⟨k, is, inside, counts⟩ := mine
      have moved := List.perm_cons_erase inside
      refine ⟨reads, blocks ++ [(t, k)], held.erase (t, k), kept.position, ?_, ?_, ?_, fun u => ?_⟩
      · simp [kept.written, contents, is]
      · refine List.Perm.trans ?_ kept.all
        rw [List.append_assoc, List.singleton_append]
        exact ((moved.symm).append_left blocks).map _
      · exact kept.nodup.sublist ((List.erase_sublist).map _)
      · by_cases same : u = t
        · subst same
          refine .inl ⟨left, Function.update_self .., ?_, ?_⟩
          · have once := (moved.map Prod.fst).nodup_iff.mp kept.nodup
            exact (List.nodup_cons.mp once).1
          · simp only [List.map_append, List.map_singleton, List.count_append,
              List.count_singleton_self]
            omega
        · simp only [Function.update_of_ne same, count_others same]
          refine (kept.stage u).imp ?_ ?_
          · rintro ⟨left', at_, fresh, rest⟩
            exact ⟨left', at_, fun still => fresh (((List.erase_sublist).map _).subset still), rest⟩
          · rintro ⟨left', k', at_, still, rest⟩
            refine ⟨left', k', at_, (List.mem_erase_of_ne ?_).mpr still, rest⟩
            rintro ⟨⟩
            exact same rfl

/-- With a buffer for every thread the file is made of all the blocks that were read,
    each of them once, and every thread writes one for every pass. -/
theorem own_file {s : Own τ} (reach : (ownSystem source numio).Reachable s)
    (finished : ∀ t, s.loc t = .before 0) :
    ∃ (reads : Nat) (blocks : List (τ × Nat)), s.position = reads * nread ∧
      s.written = contents source blocks ∧ (blocks.map Prod.snd).Perm (List.range reads) ∧
        ∀ t, (blocks.map Prod.fst).count t = numio t := by
  have kept : ∃ reads blocks held, Kept source numio reads blocks held s := by
    clear finished
    apply reach.invariant
    · rintro s rfl
      exact ⟨0, [], [], by simp, rfl, by simp, by simp, fun t => .inl ⟨numio t, rfl, by simp, rfl⟩⟩
    · rintro s t s' _ ⟨reads, blocks, held, kept⟩ taken
      exact kept.step taken
  obtain ⟨reads, blocks, held, kept⟩ := kept
  have stage : ∀ t, t ∉ held.map Prod.fst ∧ (blocks.map Prod.fst).count t = numio t := by
    intro t
    rcases kept.stage t with ⟨left, at_, fresh, counts⟩ | ⟨left, k, at_, _⟩
    · rw [finished t, OwnPc.before.injEq] at at_
      exact ⟨fresh, by omega⟩
    · rw [finished t] at at_
      cases at_
  obtain rfl : held = [] := by
    refine List.eq_nil_iff_forall_not_mem.mpr fun entry inside => ?_
    exact (stage entry.1).1 (List.mem_map_of_mem inside)
  have all := kept.all
  rw [List.append_nil] at all
  exact ⟨reads, blocks, kept.position, kept.written, all, fun t => (stage t).2⟩

/-- Two threads that write in the other order than they read. -/
theorem own_file_two : ∃ (s : Own (Fin 2)) (reads : Nat)
    (blocks : List (Fin 2 × Nat)),
    (ownSystem Nat.toUInt8 fun _ => 1).Reachable s ∧
      s.written = block Nat.toUInt8 1 ++ block Nat.toUInt8 0 ∧
      s.position = reads * nread ∧ s.written = contents Nat.toUInt8 blocks ∧
      (blocks.map Prod.snd).Perm (List.range reads) ∧
      ∀ t, (blocks.map Prod.fst).count t = 1 := by
  have first : (ownSystem Nat.toUInt8 fun _ : Fin 2 => 1).Reachable _ :=
    .step (.init rfl) (.fread (t := 0) rfl)
  have second := first.step (.fread (t := 1) rfl)
  have wrote := second.step (.fwrite (t := 1) rfl)
  have written := wrote.step (.fwrite (t := 0) rfl)
  have finished : ∀ t : Fin 2, Function.update (Function.update (Function.update
      (Function.update (fun _ => OwnPc.before 1) 0 (.filled (blockFrom Nat.toUInt8 0) 0)) 1
      (.filled (blockFrom Nat.toUInt8 (0 + nread)) 0)) 1 (.before 0)) 0 (.before 0) t =
        .before 0 := by
    intro t
    match t with
    | 0 => rfl
    | 1 => rfl
  obtain ⟨reads, blocks, kept⟩ := own_file written finished
  exact ⟨_, reads, blocks, written, by simp [block], kept⟩

end SysProg.Book
