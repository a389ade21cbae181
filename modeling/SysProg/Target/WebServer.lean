import Mathlib.Data.List.Infix
import Mathlib.Tactic.Basic

/-! # Requests to the target server

`do_GET` of `web_server.py` as the list of what it does for one request.  What
`requests.get` and the conversion of its answer amount to is a parameter, as is
the rendering by `json.dumps`; static content is left to the base class.
-/

namespace SysProg.Target

/-- The characters of a Python string. -/
abbrev Text := List Char

def mockApiEndpoint : Text := "http://jsonplaceholder.typicode.com".toList

/-- What handling a request does to the outside. -/
inductive Action where
  /-- `requests.get(url)` -/
  | get (url : Text)
  | sendResponse (status : Nat)
  | sendHeader (name value : Text)
  | endHeaders
  | write (body : Text)
  | sendError (status : Nat) (message : Text)
  /-- `super().do_GET()` -/
  | static
  deriving DecidableEq, Repr

/-- The text `send_error` is given when no resource is named. -/
def missingResource : Text :=
  "Invalid API endpoint. Missing resource (e.g. /api/users)".toList

variable {δ : Type}

/-- The answer for the data of an external resource, or for the text of a
    `RequestException`. -/
def fetchAndServeJson (fetch : Text → Except Text δ) (dumps : δ → Text) (url : Text) :
    List Action :=
  .get url ::
    match fetch url with
    | .ok data =>
        [.sendResponse 200, .sendHeader "Content-Type".toList "application/json".toList,
          .endHeaders, .write (dumps data)]
    | .error e =>
        [.sendError 500 ("Error fetching data from external API: ".toList ++ e)]

def handleDynamicContent (fetch : Text → Except Text δ) (dumps : δ → Text) (path : Text) :
    List Action :=
  if "/api/".toList.length < path.length then
    fetchAndServeJson fetch dumps (mockApiEndpoint ++ "/".toList ++ path.drop 5)
  else
    [.sendError 404 missingResource]

def doGET (fetch : Text → Except Text δ) (dumps : δ → Text) (path : Text) : List Action :=
  if "/api".toList.isPrefixOf path then
    handleDynamicContent fetch dumps path
  else
    [.static]

/-! ## What the routing is for -/

/-- `/api`, possibly with a query, and everything below `/api/`. -/
def Dynamic (path : Text) : Prop :=
  path = "/api".toList ∨ "/api?".toList <+: path ∨ "/api/".toList <+: path

/-- The resource a path names. -/
def Names (path resource : Text) : Prop := resource ≠ [] ∧ path = "/api/".toList ++ resource

/-- The URLs that handling a request fetches. -/
def fetched (actions : List Action) : List Text :=
  actions.filterMap fun
    | .get url => some url
    | _ => none

/-- A request is served as its path says. -/
structure Routed (fetch : Text → Except Text δ) (dumps : δ → Text) (path : Text) : Prop where
  dynamic : Action.static ∉ doGET fetch dumps path ↔ Dynamic path
  resource : ∀ resource, Names path resource →
    fetched (doGET fetch dumps path) = [mockApiEndpoint ++ "/".toList ++ resource]
  missing : Dynamic path → (∀ resource, ¬ Names path resource) →
    doGET fetch dumps path = [.sendError 404 missingResource]
  static : ¬ Dynamic path → doGET fetch dumps path = [.static]

section

variable {fetch : Text → Except Text δ} {dumps : δ → Text} {path : Text}

theorem doGET_static (other : ¬ "/api".toList <+: path) :
    doGET fetch dumps path = [.static] := by
  have refused : "/api".toList.isPrefixOf path = false := by
    rw [Bool.eq_false_iff]
    intro accepted
    exact other (List.isPrefixOf_iff_prefix.mp accepted)
  rw [doGET, refused]
  rfl

/-- Behind `/api` it is the length that tells whether something is fetched. -/
theorem doGET_api (rest : Text) :
    doGET fetch dumps ("/api".toList ++ rest) =
      if 1 < rest.length then
        fetchAndServeJson fetch dumps (mockApiEndpoint ++ "/".toList ++ rest.drop 1)
      else [.sendError 404 missingResource] := by
  have accepted : "/api".toList.isPrefixOf ("/api".toList ++ rest) = true :=
    List.isPrefixOf_iff_prefix.mpr (List.prefix_append _ _)
  have long : "/api/".toList.length < ("/api".toList ++ rest).length ↔ 1 < rest.length := by
    simp
    omega
  have cut : ("/api".toList ++ rest).drop 5 = rest.drop 1 := by
    simp
  calc
    doGET fetch dumps ("/api".toList ++ rest)
        = handleDynamicContent fetch dumps ("/api".toList ++ rest) := if_pos accepted
    _ = if "/api/".toList.length < ("/api".toList ++ rest).length then
          fetchAndServeJson fetch dumps
            (mockApiEndpoint ++ "/".toList ++ ("/api".toList ++ rest).drop 5)
        else [.sendError 404 missingResource] := rfl
    _ = _ := by simp only [cut, long]

theorem fetched_fetchAndServeJson (url : Text) :
    fetched (fetchAndServeJson fetch dumps url) = [url] := by
  unfold fetchAndServeJson
  cases fetch url with
  | ok data => rfl
  | error e => rfl

theorem static_not_mem_fetchAndServeJson (url : Text) :
    Action.static ∉ fetchAndServeJson fetch dumps url := by
  unfold fetchAndServeJson
  cases fetch url with
  | ok data => simp
  | error e => simp

/-- An action that begins an answer to the client. -/
def Action.answers : Action → Bool
  | .sendResponse _ | .sendError _ _ | .static => true
  | .get _ | .sendHeader _ _ | .endHeaders | .write _ => false

/-- Whatever the path and whatever the API returns, the client is answered once. -/
theorem doGET_answers_once : (doGET fetch dumps path).countP Action.answers = 1 := by
  by_cases api : "/api".toList <+: path
  · obtain ⟨rest, rfl⟩ := api
    rw [doGET_api]
    split
    · unfold fetchAndServeJson
      cases fetch _ with
      | ok data => rfl
      | error e => rfl
    · rfl
  · rw [doGET_static api]
    rfl

theorem dynamic_api {c : Char} {rest : Text} :
    Dynamic ("/api".toList ++ c :: rest) ↔ c = '?' ∨ c = '/' := by
  simp [Dynamic, List.cons_prefix_cons, eq_comm]

theorem names_api {c : Char} {rest resource : Text} :
    Names ("/api".toList ++ c :: rest) resource ↔ resource ≠ [] ∧ c = '/' ∧ rest = resource := by
  simp [Names]

theorem Dynamic.api (dynamic : Dynamic path) : "/api".toList <+: path := by
  rcases dynamic with rfl | query | below
  · exact List.prefix_rfl
  · exact List.IsPrefix.trans (by decide) query
  · exact List.IsPrefix.trans (by decide) below

/-- A path that is not below `/api` at all is static on both sides. -/
theorem routed_static (other : ¬ "/api".toList <+: path) : Routed fetch dumps path where
  dynamic := by
    rw [doGET_static other]
    exact iff_of_false (by simp) fun dynamic => other dynamic.api
  resource resource names := by
    have dynamic : Dynamic path := .inr (.inr (names.2 ▸ List.prefix_append _ _))
    exact absurd dynamic.api other
  missing dynamic _ := absurd dynamic.api other
  static _ := doGET_static other

/-- `/api` and one more character, if any, are too short to be fetched. -/
theorem routed_short {rest : Text} (short : rest.length ≤ 1)
    (dynamic : Dynamic ("/api".toList ++ rest)) :
    Routed fetch dumps ("/api".toList ++ rest) := by
  have answered : doGET fetch dumps ("/api".toList ++ rest) = [.sendError 404 missingResource] := by
    rw [doGET_api, if_neg (Nat.not_lt.mpr short)]
  refine ⟨?_, ?_, fun _ _ => answered, fun static => absurd dynamic static⟩
  · rw [answered]
    exact iff_of_true (by simp) dynamic
  · intro resource ⟨named, same⟩
    have length : rest.length = resource.length + 1 := by
      have := congrArg List.length same
      simp only [List.length_append] at this
      simp at this
      omega
    have positive := List.length_pos_iff.mpr named
    omega

/-- Below `/api/` the slice is the resource. -/
theorem routed_below {rest : Text} (named : rest ≠ []) :
    Routed fetch dumps ("/api".toList ++ '/' :: rest) := by
  have answered : doGET fetch dumps ("/api".toList ++ '/' :: rest) =
      fetchAndServeJson fetch dumps (mockApiEndpoint ++ "/".toList ++ rest) := by
    rw [doGET_api, if_pos (by simpa using List.length_pos_iff.mpr named), List.drop_one,
      List.tail_cons]
  have dynamic : Dynamic ("/api".toList ++ '/' :: rest) := dynamic_api.mpr (.inr rfl)
  refine ⟨?_, ?_, ?_, fun static => absurd dynamic static⟩
  · rw [answered]
    exact iff_of_true (static_not_mem_fetchAndServeJson _) dynamic
  · intro resource names
    obtain ⟨_, _, rfl⟩ := names_api.mp names
    rw [answered, fetched_fetchAndServeJson]
  · intro _ none
    exact absurd (names_api.mpr ⟨named, rfl, rfl⟩) (none rest)

/-- Behind any other character the rest of the path is fetched all the same. -/
theorem not_routed {c : Char} {rest : Text} (off : c ≠ '/') (more : c = '?' → rest ≠ []) :
    ¬ Routed fetch dumps ("/api".toList ++ c :: rest) := by
  intro routed
  by_cases query : c = '?'
  · have answered := routed.missing (dynamic_api.mpr (.inl query))
      fun resource names => off (names_api.mp names).2.1
    have long : 1 < (c :: rest).length := by
      simpa using List.length_pos_iff.mpr (more query)
    rw [doGET_api, if_pos long] at answered
    have urls := congrArg fetched answered
    rw [fetched_fetchAndServeJson] at urls
    cases urls
  · have static : ¬ Dynamic ("/api".toList ++ c :: rest) := fun dynamic => by
      rcases dynamic_api.mp dynamic with question | slash
      · exact query question
      · exact off slash
    apply static
    rw [← routed.dynamic, doGET_api]
    split
    · exact static_not_mem_fetchAndServeJson _
    · simp

end

/-- A path is routed as it should be exactly when it does not begin with `/api`
    or the boundary behind these four letters is where the slice takes it to be:
    at a slash, or at the end of a path of at most five characters. -/
theorem routed_iff (fetch : Text → Except Text δ) (dumps : δ → Text) (path : Text) :
    Routed fetch dumps path ↔
      ¬ "/api".toList <+: path ∨ "/api/".toList <+: path ∨
        path = "/api".toList ∨ path = "/api?".toList := by
  by_cases api : "/api".toList <+: path
  · obtain ⟨rest, rfl⟩ := api
    cases rest with
    | nil => exact iff_of_true (routed_short (by simp) (.inl rfl)) (.inr (.inr (.inl rfl)))
    | cons c rest =>
        by_cases slash : c = '/'
        · subst slash
          have below : "/api/".toList <+: "/api".toList ++ '/' :: rest := ⟨rest, rfl⟩
          apply iff_of_true _ (.inr (.inl below))
          by_cases named : rest = []
          · subst named
            exact routed_short (by simp) (dynamic_api.mpr (.inr rfl))
          · exact routed_below named
        · by_cases query : c = '?' ∧ rest = []
          · obtain ⟨rfl, rfl⟩ := query
            exact iff_of_true (routed_short (by simp) (dynamic_api.mpr (.inl rfl)))
              (.inr (.inr (.inr rfl)))
          · apply iff_of_false (not_routed slash fun question none => query ⟨question, none⟩)
            simp only [not_or, not_not]
            refine ⟨List.prefix_append _ _, ?_, ?_, ?_⟩
            · intro ⟨resource, same⟩
              simp at same
              exact slash same.1.symm
            · simp
            · intro same
              simp at same
              exact query same
  · exact iff_of_true (routed_static api) (.inl api)

/-- A path that only begins with the same letters is fetched from the API, cut in
    the middle of its first segment; a query without a slash is fetched too. -/
theorem apiary_is_fetched :
    (¬ Dynamic "/apiary".toList ∧
      fetched (doGET (δ := Unit) (fun _ => .ok ()) (fun _ => "{}".toList) "/apiary".toList) =
        ["http://jsonplaceholder.typicode.com/ry".toList] ∧
      ¬ Routed (δ := Unit) (fun _ => .ok ()) (fun _ => "{}".toList) "/apiary".toList) ∧
    (Dynamic "/api?x=1".toList ∧ (∀ resource, ¬ Names "/api?x=1".toList resource) ∧
      fetched (doGET (δ := Unit) (fun _ => .ok ()) (fun _ => "{}".toList) "/api?x=1".toList) =
        ["http://jsonplaceholder.typicode.com/x=1".toList] ∧
      ¬ Routed (δ := Unit) (fun _ => .ok ()) (fun _ => "{}".toList) "/api?x=1".toList) := by
  have apiary : ¬ Dynamic "/apiary".toList := by
    unfold Dynamic
    decide
  have query : Dynamic "/api?x=1".toList := by
    unfold Dynamic
    decide
  have unnamed : ∀ resource, ¬ Names "/api?x=1".toList resource := by
    intro resource ⟨_, same⟩
    cases same
  refine ⟨⟨apiary, rfl, ?_⟩, query, unnamed, rfl, ?_⟩
  · intro routed
    exact absurd (routed.static apiary) (by decide)
  · intro routed
    exact absurd (routed.missing query unnamed) (by decide)

end SysProg.Target
