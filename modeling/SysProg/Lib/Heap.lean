import Mathlib.Data.List.Nodup
import Mathlib.Logic.Function.Basic
import SysProg.Lib.Fallible

/-! # Explicit heaps of linked nodes

A heap maps an address to its live node.  Reading or writing a field of an
address that is not live, freeing it, and signed overflow are undefined
behaviour, kept apart as an error.  `Chain` says that following one link field
from a node visits a given list of addresses; what the last of them links to is
left open.
-/

namespace SysProg.Heap

abbrev Addr := Nat

/-- What the language leaves undefined. -/
inductive Undefined where
  /-- A field of NULL or of a node that is not allocated. -/
  | access (p : Option Addr)
  /-- `free` of a node that is not allocated. -/
  | free (p : Option Addr)
  /-- Signed overflow. -/
  | overflow
  deriving DecidableEq, Repr

abbrev Store (ν : Type) := Addr → Option ν

section

variable {ν : Type}

/-- `*p` -/
def load (h : Store ν) (p : Option Addr) : Except Undefined ν :=
  match p.bind h with
  | some n => .ok n
  | none => .error (.access p)

/-- Put a node at an address, allocating it if need be. -/
def put (h : Store ν) (a : Addr) (n : ν) : Store ν := Function.update h a (some n)

/-- `free(p)` -/
def release (h : Store ν) (p : Option Addr) : Except Undefined (Store ν) :=
  match p with
  | some a => if (h a).isSome then .ok (Function.update h a none) else .error (.free p)
  | none => .error (.free p)

theorem load_of_live {h : Store ν} {a : Addr} {n : ν} (live : h a = some n) :
    load h (some a) = .ok n := by
  simp [load, live]

theorem release_of_live {h : Store ν} {a : Addr} {n : ν} (live : h a = some n) :
    release h (some a) = .ok (Function.update h a none) := by
  simp [release, live]

@[simp] theorem put_self (h : Store ν) (a : Addr) (n : ν) : put h a n a = some n :=
  Function.update_self ..

theorem put_of_ne {h : Store ν} {a b : Addr} {n : ν} (ne : b ≠ a) : put h a n b = h b :=
  Function.update_of_ne ne ..

/-- Following `next` from `a` visits exactly the given addresses, as far as they go. -/
def Chain (next : ν → Option Addr) (h : Store ν) : Addr → List Addr → Prop
  | _, [] => True
  | a, b :: bs => (∃ n, h a = some n ∧ next n = some b) ∧ Chain next h b bs

variable {next : ν → Option Addr} {h h' : Store ν}

/-- Only the nodes before the last one matter to a chain. -/
theorem Chain.congr {a : Addr} {bs : List Addr} (chain : Chain next h a bs)
    (same : ∀ x ∈ (a :: bs).dropLast, h' x = h x) : Chain next h' a bs := by
  induction bs generalizing a with
  | nil => trivial
  | cons b bs ih =>
      obtain ⟨⟨n, live, link⟩, rest⟩ := chain
      refine ⟨⟨n, ?_, link⟩, ih rest fun x member => same x ?_⟩
      · rw [same a (by simp), live]
      · simp only [List.dropLast_cons_cons, List.mem_cons]
        exact .inr member

/-- Linking the last node to a new one extends the chain by it. -/
theorem Chain.snoc {a b : Addr} {bs : List Addr} {n : ν} (chain : Chain next h a bs)
    (live : h (bs.getLastD a) = some n) (link : next n = some b) :
    Chain next h a (bs ++ [b]) := by
  induction bs generalizing a with
  | nil => exact ⟨⟨n, live, link⟩, trivial⟩
  | cons c bs ih =>
      rw [List.getLastD_cons] at live
      exact ⟨chain.1, ih chain.2 live⟩

theorem last_mem (a : Addr) (bs : List Addr) : bs.getLastD a ∈ a :: bs := by
  induction bs generalizing a with
  | nil => simp
  | cons b bs ih =>
      rw [List.getLastD_cons]
      exact List.mem_cons_of_mem a (ih b)

/-- With distinct addresses the last one is none of those before it. -/
theorem last_not_before {a : Addr} {bs : List Addr} (distinct : (a :: bs).Nodup) :
    bs.getLastD a ∉ (a :: bs).dropLast := by
  induction bs generalizing a with
  | nil => simp
  | cons b bs ih =>
      obtain ⟨absent, rest⟩ := List.nodup_cons.mp distinct
      simp only [List.getLastD_cons, List.dropLast_cons_cons, List.mem_cons, not_or]
      exact ⟨fun same => absent (same ▸ last_mem b bs), ih rest⟩

end

end SysProg.Heap
