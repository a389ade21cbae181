import SysProg.Proxy.Handler

/-! # Connecting to the target

`connect_to_target_server` against a list of addresses of any length, each of
which decides what `socket` and `connect` will do for it.  Everything the
function opened is either closed or still open, and what it returns after an
exhausted list is whatever `socket` gave last.
-/

namespace SysProg.Proxy

open CString Interaction

section

variable {B : Type}

/-- An address of `getaddrinfo` with what `socket` returns for it and whether
    `connect` then succeeds. -/
structure Candidate (B : Type) where
  address : B
  socket : Int
  connects : Bool
  /-- A failing `socket` returns -1. -/
  socketValue : -1 ≤ socket

def Candidate.Succeeds (c : Candidate B) : Prop := 0 ≤ c.socket ∧ c.connects = true

instance (c : Candidate B) : Decidable c.Succeeds := by
  unfold Candidate.Succeeds
  infer_instance

/-- The first address, in list order, that can be connected. -/
def firstReachable (result : List (Candidate B)) : Option (Candidate B) :=
  result.find? fun c => decide c.Succeeds

/-- What the function has done with descriptors and address lists. -/
structure Sockets (B : Type) where
  /-- Open descriptors. -/
  held : List Int
  /-- Every descriptor that was opened, in order. -/
  opened : List Int
  /-- Every call of `close`, in order. -/
  closed : List Int
  /-- Every successful `connect`. -/
  connections : List (Int × Candidate B)
  /-- Every list given to `freeaddrinfo`. -/
  freed : List (List (Candidate B))

def Sockets.start : Sockets B := ⟨[], [], [], [], []⟩

/-- `getaddrinfo` returns `result`; `socket` and `connect` do what each address
    says; no other call is of interest. -/
def resolving (result : Option (List (Candidate B))) : World (calls (Candidate B)) (Sockets B)
  | s, .getaddrinfo _ _, r, s' => r = result ∧ s' = s
  | s, .freeaddrinfo list, _, s' => s' = { s with freed := s.freed ++ [list] }
  | s, .socket p, r, s' =>
      r = p.socket ∧
        s' = if r < 0 then s else { s with held := r :: s.held, opened := s.opened ++ [r] }
  | s, .connect fd p _, r, s' =>
      r = p.connects ∧
        s' = if r then { s with connections := s.connections ++ [(fd, p)] } else s
  | s, .close fd, _, s' => s' = { s with held := s.held.erase fd, closed := s.closed ++ [fd] }
  | s, _, _, s' => s' = s

/-- What a caller relies on.  `held` and `closed` together say that everything
    opened but the result was closed exactly once. -/
structure Contract (result : Option (List (Candidate B))) (t : Int) (s : Sockets B) : Prop where
  failure : t = -1 ↔ ∀ list, result = some list → ∀ c ∈ list, ¬ c.Succeeds
  connected : ∀ list c, result = some list → firstReachable list = some c →
    t = c.socket ∧ 0 ≤ t ∧ s.held = [t] ∧ s.connections = [(t, c)]
  unconnected : (∀ list, result = some list → firstReachable list = none) →
    s.held = [] ∧ s.connections = []
  closedOnce : s.opened = s.closed ++ s.held
  freedOnce : s.freed = result.toList

/-- What the loop leaves in `sockfd` when no address can be connected. -/
def lastSocket (sockfd : Int) (list : List (Candidate B)) : Int :=
  (list.map (·.socket)).getLastD sockfd

/-- What the loop has done with `list` where it returns `t`: the first reachable
    address is connected, and everything opened for those before it is closed. -/
structure Tried (list : List (Candidate B)) (sockfd : Int) (s s' : Sockets B) (t : Int) : Prop where
  reached : ∀ c, firstReachable list = some c →
    t = c.socket ∧ s'.held = [t] ∧ s'.connections = s.connections ++ [(t, c)]
  exhausted : firstReachable list = none →
    t = lastSocket sockfd list ∧ s'.held = [] ∧ s'.connections = s.connections
  balance : s.opened = s.closed → s'.opened = s'.closed ++ s'.held
  freed : s'.freed = s.freed

theorem firstReachable_cons_of_not {c : Candidate B} {list : List (Candidate B)}
    (fails : ¬ c.Succeeds) : firstReachable (c :: list) = firstReachable list := by
  simp [firstReachable, fails]

/-- An address that is left without effect is only skipped. -/
theorem Tried.skip {c : Candidate B} {list : List (Candidate B)} {sockfd t : Int}
    {s s₁ s' : Sockets B} (fails : ¬ c.Succeeds) (tried : Tried list c.socket s₁ s' t)
    (connections : s₁.connections = s.connections) (freed : s₁.freed = s.freed)
    (balance : s.opened = s.closed → s₁.opened = s₁.closed) :
    Tried (c :: list) sockfd s s' t := by
  constructor
  · intro d found
    rw [firstReachable_cons_of_not fails] at found
    rw [← connections]
    exact tried.reached d found
  · intro found
    rw [firstReachable_cons_of_not fails] at found
    obtain ⟨last, held, same⟩ := tried.exhausted found
    refine ⟨?_, held, same.trans connections⟩
    rw [last, lastSocket, lastSocket, List.map_cons, List.getLastD_cons]
  · exact fun balanced => tried.balance (balance balanced)
  · exact tried.freed.trans freed

variable {result : Option (List (Candidate B))} {stops : Sockets B → Stop → Prop}

theorem connectLoop_tried (list : List (Candidate B)) (sockfd : Int) {s : Sockets B}
    (none_ : s.held = []) :
    Safe (resolving result) (fun _ _ => True) stops (fun s' t => Tried list sockfd s s' t)
      (connectLoop sockfd list) s := by
  induction list generalizing sockfd s with
  | nil =>
      refine .ret ⟨fun c found => (by cases found), fun _ => ⟨rfl, none_, rfl⟩, ?_, rfl⟩
      intro balanced
      rw [none_, List.append_nil, balanced]
  | cons c next ih =>
      rw [connectLoop_cons]
      refine .call trivial fun fd s₁ opened => ?_
      obtain ⟨rfl, rfl⟩ := opened
      by_cases negative : c.socket < 0
      · have fails : ¬ c.Succeeds := fun succeeds => Int.not_lt.mpr succeeds.1 negative
        simp only [if_pos negative]
        exact (ih c.socket none_).consequence fun _ _ tried => tried.skip fails rfl rfl id
      · simp only [if_neg negative]
        refine .call trivial fun ok s₂ answered => ?_
        obtain ⟨rfl, rfl⟩ := answered
        cases connects : c.connects with
        | true =>
            have succeeds : c.Succeeds := ⟨Int.not_lt.mp negative, connects⟩
            have first : firstReachable (c :: next) = some c := by simp [firstReachable, succeeds]
            refine .ret ⟨fun d found => ?_, fun found => ?_, fun balanced => ?_, rfl⟩
            · obtain rfl : c = d := Option.some.inj (first.symm.trans found)
              exact ⟨rfl, by simp [none_], rfl⟩
            · rw [first] at found
              cases found
            · simp [none_, balanced]
        | false =>
            have fails : ¬ c.Succeeds := fun succeeds =>
              Bool.false_ne_true (connects.symm.trans succeeds.2)
            refine .call trivial fun _ s₃ closed => ?_
            obtain rfl := closed
            refine (ih c.socket (by simp [none_])).consequence fun _ _ tried => ?_
            exact tried.skip fails rfl rfl fun balanced => by simp [balanced]

/-- How the whole function ends. -/
def Connected (result : Option (List (Candidate B))) (sockfd : Int) (s : Sockets B) (t : Int) :
    Prop :=
  match result with
  | none => t = -1 ∧ s = .start
  | some list => ∃ s₁, Tried list sockfd .start s₁ t ∧ s = { s₁ with freed := s₁.freed ++ [list] }

theorem connectToTargetServer_connected (result : Option (List (Candidate B))) (sockfd : Int)
    (hostname : Bytes) (port : Int) :
    Safe (resolving result) (fun _ _ => True) (fun _ _ => False) (Connected result sockfd)
      (connectToTargetServer sockfd hostname port) .start := by
  refine Safe.perform trivial fun r s₁ resolved => ?_
  obtain ⟨rfl, rfl⟩ := resolved
  cases r with
  | none => exact .ret ⟨rfl, rfl⟩
  | some list =>
      apply Safe.bind
      refine (connectLoop_tried list sockfd rfl).consequence fun s₂ t tried => ?_
      refine .call trivial fun _ s₃ released => ?_
      exact .ret ⟨s₂, tried, released⟩

theorem firstReachable_eq_none {list : List (Candidate B)} :
    firstReachable list = none ↔ ∀ c ∈ list, ¬ c.Succeeds := by
  simp [firstReachable, List.find?_eq_none]

/-- The condition under which the returned value tells success from failure. -/
def Tells (result : Option (List (Candidate B))) (sockfd : Int) : Prop :=
  ∀ list, result = some list →
    (∃ c ∈ list, c.Succeeds) ∨ lastSocket sockfd list = -1

section

variable {list : List (Candidate B)} {sockfd t : Int} {s₁ : Sockets B}

/-- With a reachable address the loop ends as its caller expects. -/
theorem Tried.contract_of_found {c : Candidate B} (tried : Tried list sockfd .start s₁ t)
    (found : firstReachable list = some c) :
    Contract (some list) t { s₁ with freed := s₁.freed ++ [list] } := by
  obtain ⟨rfl, held, connections⟩ := tried.reached c found
  have member : c ∈ list := List.mem_of_find?_eq_some found
  have succeeds : c.Succeeds := by simpa using List.find?_some found
  constructor
  · constructor
    · intro negative
      have valid := succeeds.1
      omega
    · intro fails
      exact absurd succeeds (fails list rfl c member)
  · rintro _ d ⟨⟩ found'
    obtain rfl : c = d := Option.some.inj (found.symm.trans found')
    exact ⟨rfl, succeeds.1, held, by rw [connections]; rfl⟩
  · intro unreachable
    rw [unreachable list rfl] at found
    cases found
  · exact tried.balance rfl
  · simp [tried.freed, Sockets.start]

/-- Without one it does so when it leaves -1 in `sockfd`. -/
theorem Tried.contract_of_minusOne (tried : Tried list sockfd .start s₁ t)
    (found : firstReachable list = none) (minusOne : lastSocket sockfd list = -1) :
    Contract (some list) t { s₁ with freed := s₁.freed ++ [list] } := by
  obtain ⟨last, held, connections⟩ := tried.exhausted found
  have fails := firstReachable_eq_none.mp found
  constructor
  · constructor
    · rintro _ _ ⟨⟩
      exact fails
    · intro _
      exact last.trans minusOne
  · rintro _ c ⟨⟩ found'
    rw [found] at found'
    cases found'
  · intro _
    exact ⟨held, connections⟩
  · exact tried.balance rfl
  · simp [tried.freed, Sockets.start]

/-- Only -1 tells that every address failed. -/
theorem Tried.minusOne_of_contract {s : Sockets B} (tried : Tried list sockfd .start s₁ t)
    (contract : Contract (some list) t s) (fails : ∀ c ∈ list, ¬ c.Succeeds) :
    lastSocket sockfd list = -1 := by
  rw [← (tried.exhausted (firstReachable_eq_none.mpr fails)).1]
  apply contract.failure.mpr
  rintro _ ⟨⟩
  exact fails

end

theorem Connected.contract_iff {sockfd t : Int} {s : Sockets B}
    (ends : Connected result sockfd s t) : Contract result t s ↔ Tells result sockfd := by
  cases result with
  | none =>
      obtain ⟨rfl, rfl⟩ := ends
      constructor
      · rintro _ list ⟨⟩
      · intro _
        exact ⟨⟨fun _ _ => nofun, fun _ => rfl⟩, fun _ _ => nofun, fun _ => ⟨rfl, rfl⟩, rfl, rfl⟩
  | some list =>
      obtain ⟨s₁, tried, rfl⟩ := ends
      constructor
      · rintro contract _ ⟨⟩
        by_cases reachable : ∃ c ∈ list, c.Succeeds
        · exact .inl reachable
        · right
          apply tried.minusOne_of_contract contract
          intro c member succeeds
          exact reachable ⟨c, member, succeeds⟩
      · intro tells
        cases found : firstReachable list with
        | some c => exact tried.contract_of_found found
        | none =>
            rcases tells list rfl with ⟨c, member, succeeds⟩ | minusOne
            · exact absurd succeeds (firstReachable_eq_none.mp found c member)
            · exact tried.contract_of_minusOne found minusOne

/-- Every call is answered. -/
theorem resolving_answers (result : Option (List (Candidate B))) (s : Sockets B)
    (e : Call (Candidate B)) : ∃ r s', resolving result s e r s' := by
  cases e with
  | getaddrinfo hostname port => exact ⟨result, s, rfl, rfl⟩
  | socket p => exact ⟨p.socket, _, rfl, rfl⟩
  | connect fd p next => exact ⟨p.connects, _, rfl, rfl⟩
  | freeaddrinfo list => exact ⟨(), _, rfl⟩
  | close fd => exact ⟨(), _, rfl⟩
  | accept => exact ⟨(0 : Int), s, rfl⟩
  | mallocInt => exact ⟨(none : Option Addr), s, rfl⟩
  | mallocRequest => exact ⟨false, s, rfl⟩
  | free p => exact ⟨(), s, rfl⟩
  | enqueue arg => exact ⟨(), s, rfl⟩
  | recv fd size => exact ⟨(none : Option Bytes), s, rfl⟩
  | send fd bytes nosignal => exact ⟨(none : Option Nat), s, rfl⟩

/-- For every list of addresses and whatever `socket` and `connect` do with them,
    the function keeps its contract exactly when resolving fails, some address can
    be connected, or the last `socket` failed. -/
theorem connection_contract_iff (result : Option (List (Candidate B))) (sockfd : Int)
    (hostname : Bytes) (port : Int) :
    (∀ out s, Runs (resolving result) (connectToTargetServer sockfd hostname port) .start out s →
        ∃ t, out = .returned t ∧ Contract result t s) ↔ Tells result sockfd := by
  have ends := connectToTargetServer_connected result sockfd hostname port
  constructor
  · intro kept
    obtain ⟨out, s, run, _⟩ := Runs.exists (W := resolving result) (fun _ => True)
      (fun s e _ => by
        obtain ⟨r, s', answered⟩ := resolving_answers result s e
        exact ⟨r, s', answered, trivial⟩)
      trivial (connectToTargetServer sockfd hostname port)
    obtain ⟨t, rfl, contract⟩ := kept out s run
    have connected : Connected result sockfd s t := ends.sound run
    exact connected.contract_iff.mp contract
  · intro tells out s run
    have ended := ends.sound run
    cases out with
    | returned t =>
        have connected : Connected result sockfd s t := ended
        exact ⟨t, rfl, connected.contract_iff.mpr tells⟩
    | halted h => exact absurd ended id

end

/-- An address for which `socket` returns 5 and `connect` fails. -/
def refusing : Candidate Unit := ⟨(), 5, false, by decide⟩

/-- When the only address refuses, its closed descriptor is returned. -/
theorem refused_descriptor_returned :
    ∃ s, Runs (resolving (some [refusing])) (connectToTargetServer 0 (ascii "a") 80) .start
        (.returned 5) s ∧ s.closed = [5] ∧ s.held = [] ∧ ¬ Contract (some [refusing]) 5 s := by
  refine ⟨⟨[], [5], [5], [], [[refusing]]⟩, ?_, rfl, rfl, fun contract => ?_⟩
  · exact .call ⟨rfl, rfl⟩ (.call ⟨rfl, rfl⟩ (.call ⟨rfl, rfl⟩
      (.call (r := ()) rfl (.call (r := ()) rfl (.ret _ _)))))
  · have fails : ∀ list, some [refusing] = some list → ∀ c ∈ list, ¬ c.Succeeds := by
      rintro _ ⟨⟩ c member
      obtain rfl := List.mem_singleton.mp member
      decide
    exact absurd (contract.failure.mpr fails) (by decide)

end SysProg.Proxy
