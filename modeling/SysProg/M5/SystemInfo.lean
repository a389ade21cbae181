import Mathlib.Data.List.Induction
import SysProg.Lib.Decimal
import SysProg.Lib.Fgets

/-! # System information

What `system_info.c` makes of `/proc/cpuinfo` and `/proc/meminfo`.  Both are read
in pieces of one buffer each, and the last line with a label decides.
-/

namespace SysProg.M5

open CString Decimal Fgets Scan

/-! ## `get_cpu_info` -/

structure CpuInfo where
  model : Bytes
  cores : Int
  modelType : Bytes
  deriving DecidableEq

/-- `strchr(line, ':') + 2`, which is undefined without a colon, and past the
    terminator when the colon ends the string. -/
def afterColon (line : Bytes) : Option Bytes :=
  match strchr line 58 with
  | some (_ :: _ :: rest) => some rest
  | _ => none

/-- The string behind the colon up to its newline. -/
def cut (text : Bytes) : Bytes := text.takeWhile (· ≠ 10)

/-- One pass of the loop of `get_cpu_info`. -/
def cpuLine (info : CpuInfo) (line : Bytes) : Option CpuInfo := do
  let info ←
    if startsWith line (ascii "model name") then
      (afterColon line).map fun text => { info with model := cut text }
    else some info
  let info ←
    if startsWith line (ascii "vendor_id") then
      (afterColon line).map fun text => { info with modelType := cut text }
    else some info
  if startsWith line (ascii "cpu cores") then
    (afterColon line).map fun text => { info with cores := atoi text }
  else some info

/-- `get_cpu_info` on what the file holds, or `none` where a pointer leaves its
    string. -/
def getCpuInfo (file : Bytes) : Option CpuInfo :=
  ((pieces 255 file).map untilZero).foldlM cpuLine ⟨[], 0, []⟩

/-- `COLUMN_FORMAT` -/
def column (label : Bytes) : Bytes := label ++ List.replicate (29 - label.length) 32

/-- What is printed of it. -/
def CpuInfo.text (info : CpuInfo) : Bytes :=
  column (ascii "CPU Type:") ++ ascii " " ++ info.model ++ ascii " \n" ++
    column (ascii "CPU Cores:") ++ ascii " " ++ signedDecimal info.cores ++ ascii " \n" ++
    column (ascii "CPU Model:") ++ ascii " " ++ info.modelType ++ ascii " \n"

theorem afterColon_length {line text : Bytes} (found : afterColon line = some text) :
    text.length + 2 ≤ line.length := by
  unfold afterColon at found
  split at found
  · rename_i colon
    cases found
    have shorter := (strchr_suffix colon).length_le
    rwa [List.length_cons, List.length_cons] at shorter
  · cases found

/-- No file makes a `strcpy` leave its buffer of 256 bytes. -/
theorem afterColon_fits {file line text : Bytes} (read : line ∈ (pieces 255 file).map untilZero)
    (found : afterColon line = some text) : text.length < 256 := by
  obtain ⟨piece, member, rfl⟩ := List.mem_map.mp read
  have room := pieces_length (by decide) member
  have short := length_untilZero_le piece
  have copied := afterColon_length found
  omega

/-- The labels that `get_cpu_info` looks for. -/
inductive CpuLabel where
  | modelName
  | vendorId
  | cpuCores
  deriving DecidableEq

def CpuLabel.text : CpuLabel → Bytes
  | .modelName => ascii "model name"
  | .vendorId => ascii "vendor_id"
  | .cpuCores => ascii "cpu cores"

/-- A line of `/proc/cpuinfo`. -/
inductive CpuField where
  /-- One that `get_cpu_info` looks for: a label, tabs, and a value behind a colon. -/
  | known (label : CpuLabel) (tabs : Nat) (value : Bytes)
  /-- Any other one, with or without a colon or a value, or the empty line behind a
      processor. -/
  | other (text : Bytes)

namespace CpuField

/-- The line without its newline. -/
def content : CpuField → Bytes
  | .known label tabs value => label.text ++ List.replicate tabs 9 ++ [58, 32] ++ value
  | .other text => text

/-- A line that `get_cpu_info` reads right: one with a label that it looks for
    fits into the buffer, and of another one no piece looks like it. -/
def Proper : CpuField → Prop
  | .known label tabs value =>
      (∀ b ∈ value, b ≠ 10 ∧ b ≠ 0) ∧ (known label tabs value).content.length < 255
  | .other text =>
      (∀ b ∈ text, b ≠ 10) ∧
        ∀ piece ∈ pieces 255 (text ++ [10]), ∀ label : CpuLabel, ¬ label.text <+: piece

/-- What a line changes. -/
def apply : CpuField → CpuInfo → CpuInfo
  | .known .modelName _ value, info => { info with model := value }
  | .known .vendorId _ value, info => { info with modelType := value }
  | .known .cpuCores _ value, info => { info with cores := atoi value }
  | .other _, info => info

/-- The value of a line with a label. -/
def value? (label : CpuLabel) : CpuField → Option Bytes
  | .known own _ value => if own = label then some value else none
  | .other _ => none

end CpuField

theorem CpuLabel.text_plain (label : CpuLabel) : ∀ b ∈ label.text, b ≠ 10 ∧ b ≠ 0 ∧ b ≠ 58 := by
  cases label <;> decide

/-- Of two different labels only one begins a line. -/
theorem CpuLabel.unique {label label' : CpuLabel} {line : Bytes} (starts : label.text <+: line)
    (starts' : label'.text <+: line) : label = label' := by
  have first : ∀ l l' : CpuLabel, l.text.head? = l'.text.head? → l = l' := by
    intro l l'
    cases l <;> cases l' <;> decide
  have some_ : ∀ l : CpuLabel, l.text ≠ [] := by
    intro l
    cases l <;> decide
  refine first label label' ?_
  obtain ⟨rest, rfl⟩ := starts
  obtain ⟨rest', same⟩ := starts'
  have heads := congrArg List.head? same
  rw [List.head?_append_of_ne_nil _ (some_ label'),
    List.head?_append_of_ne_nil _ (some_ label)] at heads
  exact heads.symm

namespace CpuField

variable {label : CpuLabel} {tabs : Nat} {value : Bytes}

theorem content_plain (plain : ∀ b ∈ value, b ≠ 10 ∧ b ≠ 0) :
    ∀ b ∈ (known label tabs value).content, b ≠ 10 ∧ b ≠ 0 := by
  intro b member
  simp only [content, List.mem_append, List.mem_replicate] at member
  rcases member with ((inside | ⟨_, rfl⟩) | inside) | inside
  · exact ⟨(label.text_plain b inside).1, (label.text_plain b inside).2.1⟩
  · decide
  · revert b
    decide
  · exact plain b inside

/-- Behind the colon of a whole line. -/
theorem afterColon_content :
    afterColon ((known label tabs value).content ++ [10]) = some (value ++ [10]) := by
  have before : ∀ b ∈ label.text ++ List.replicate tabs 9, decide (b ≠ 58) = true := by
    intro b member
    rw [decide_eq_true_iff]
    rcases List.mem_append.mp member with inside | inside
    · exact (label.text_plain b inside).2.2
    · rw [(List.mem_replicate.mp inside).2]
      decide
  have found : strchr ((known label tabs value).content ++ [10]) 58 =
      some ([58, 32] ++ value ++ [10]) := by
    unfold strchr content
    rw [List.append_assoc, List.append_assoc, List.dropWhile_append_of_pos before]
    simp
  rw [afterColon, found]
  rfl

theorem cut_value (plain : ∀ b ∈ value, b ≠ 10 ∧ b ≠ 0) : cut (value ++ [10]) = value := by
  have visible : ∀ b ∈ value, decide (b ≠ 10) = true :=
    fun b inside => decide_eq_true (plain b inside).1
  rw [cut, List.takeWhile_append_of_pos visible]
  simp

/-- Of a piece without a label nothing is taken. -/
theorem cpuLine_other {info : CpuInfo} {line : Bytes}
    (other : ∀ label : CpuLabel, ¬ label.text <+: line) : cpuLine info line = some info := by
  have quiet : ∀ label : CpuLabel, startsWith line label.text = false := fun label =>
    Bool.eq_false_iff.mpr fun starts => other label (startsWith_iff.mp starts)
  have model := quiet .modelName
  have vendor := quiet .vendorId
  have cores := quiet .cpuCores
  simp only [CpuLabel.text] at model vendor cores
  simp [cpuLine, model, vendor, cores]

theorem cpuLine_known (info : CpuInfo) (plain : ∀ b ∈ value, b ≠ 10 ∧ b ≠ 0) :
    cpuLine info ((known label tabs value).content ++ [10]) =
      some ((known label tabs value).apply info) := by
  have starts : label.text <+: (known label tabs value).content ++ [10] := by
    simp only [content, List.append_assoc]
    exact List.prefix_append _ _
  have only : ∀ l : CpuLabel,
      startsWith ((known label tabs value).content ++ [10]) l.text = decide (label = l) := by
    intro l
    rw [Bool.eq_iff_iff, startsWith_iff, decide_eq_true_iff]
    exact ⟨fun starts' => CpuLabel.unique starts starts', fun same => same ▸ starts⟩
  have model := only .modelName
  have vendor := only .vendorId
  have cores := only .cpuCores
  simp only [CpuLabel.text] at model vendor cores
  have number : atoi (value ++ [10]) = atoi value := by
    rw [atoi, atoi, numeral_line]
  cases label <;>
    simp [cpuLine, apply, model, vendor, cores, afterColon_content, cut_value plain, number]

/-- What the pieces of a line change. -/
theorem cpuLine_pieces (info : CpuInfo) {field : CpuField} (proper : field.Proper) :
    ((pieces 255 (field.content ++ [10])).map untilZero).foldlM cpuLine info =
      some (field.apply info) := by
  cases field with
  | known label tabs value =>
      obtain ⟨plain, fits⟩ := proper
      have whole : untilZero ((known label tabs value).content ++ [10]) =
          (known label tabs value).content ++ [10] := by
        refine untilZero_eq_self fun b member => ?_
        rcases List.mem_append.mp member with inside | inside
        · exact (content_plain plain b inside).2
        · simp at inside
          subst inside
          decide
      rw [pieces_line (fun b inside => (content_plain plain b inside).1) fits]
      simp [whole, cpuLine_known info plain]
  | other text =>
      obtain ⟨-, quiet⟩ := proper
      simp only [content, apply]
      generalize pieces 255 (text ++ [10]) = ps at quiet
      induction ps with
      | nil => rfl
      | cons piece ps ih =>
          have here : cpuLine info (untilZero piece) = some info := by
            refine cpuLine_other fun label starts => ?_
            exact quiet piece List.mem_cons_self label (starts.trans (List.takeWhile_prefix _))
          have later := ih fun piece inside => quiet piece (List.mem_cons_of_mem _ inside)
          simpa [here] using later

theorem Proper.no_newline {field : CpuField} (proper : field.Proper) :
    ∀ b ∈ field.content, b ≠ 10 := by
  cases field with
  | known label tabs value => exact fun b inside => (content_plain proper.1 b inside).1
  | other text => exact proper.1

end CpuField

/-- The file that a list of lines makes. -/
def cpuFile (fields : List CpuField) : Bytes :=
  (fields.map fun field => field.content ++ [10]).flatten

/-- The last value that a label has. -/
def lastValue (label : CpuLabel) (fields : List CpuField) : Option Bytes :=
  (fields.filterMap (CpuField.value? label)).getLast?

theorem lastValue_concat (label : CpuLabel) (fields : List CpuField) (field : CpuField) :
    lastValue label (fields ++ [field]) = (field.value? label).or (lastValue label fields) := by
  cases found : field.value? label <;> simp [lastValue, List.filterMap_append, found]

/-- The loop goes through the lines one by one. -/
theorem getCpuInfo_fold {fields : List CpuField} (proper : ∀ field ∈ fields, field.Proper)
    (info : CpuInfo) :
    ((pieces 255 (cpuFile fields)).map untilZero).foldlM cpuLine info =
      some (fields.foldl (fun info field => field.apply info) info) := by
  induction fields generalizing info with
  | nil => simp [cpuFile]
  | cons field fields ih =>
      have here := proper field List.mem_cons_self
      have file : cpuFile (field :: fields) = field.content ++ 10 :: cpuFile fields := by
        simp [cpuFile]
      rw [file, pieces_append (by decide) here.no_newline, List.map_append, List.foldlM_append,
        CpuField.cpuLine_pieces info here]
      exact ih (fun f inside => proper f (List.mem_cons_of_mem _ inside)) _

theorem foldl_apply (fields : List CpuField) :
    fields.foldl (fun info field => field.apply info) ⟨[], 0, []⟩ =
      { model := (lastValue .modelName fields).getD []
        cores := ((lastValue .cpuCores fields).map atoi).getD 0
        modelType := (lastValue .vendorId fields).getD [] } := by
  induction fields using List.reverseRecOn with
  | nil => rfl
  | append_singleton fields field ih =>
      rw [List.foldl_append, ih]
      simp only [List.foldl_cons, List.foldl_nil, lastValue_concat]
      cases field with
      | known label tabs value => cases label <;> simp [CpuField.apply, CpuField.value?]
      | other text => simp [CpuField.apply, CpuField.value?]

/-- `/proc/cpuinfo` is read right, however many processors it lists and whatever its
    other lines are: no pointer leaves its string, and what is printed are the values
    of the last line with each label. -/
theorem cpu_info_read {fields : List CpuField} (proper : ∀ field ∈ fields, field.Proper) :
    (getCpuInfo (cpuFile fields)).map CpuInfo.text =
      some (column (ascii "CPU Type:") ++ ascii " " ++
          (lastValue .modelName fields).getD [] ++ ascii " \n" ++
        column (ascii "CPU Cores:") ++ ascii " " ++
          signedDecimal (((lastValue .cpuCores fields).map atoi).getD 0) ++ ascii " \n" ++
        column (ascii "CPU Model:") ++ ascii " " ++
          (lastValue .vendorId fields).getD [] ++ ascii " \n") := by
  rw [getCpuInfo, getCpuInfo_fold proper, foldl_apply]
  rfl

theorem cpu_info_read_processors :
    (getCpuInfo (cpuFile [.known .vendorId 1 (ascii "AuthenticAMD"),
        .known .modelName 1 (ascii "EPYC"), .known .cpuCores 1 (ascii "8"),
        .other (ascii "power management:"), .other [], .known .vendorId 1 (ascii "AuthenticAMD"),
        .known .cpuCores 1 (ascii "16"), .other (ascii "power management:"), .other []])).map
          CpuInfo.text =
      some (column (ascii "CPU Type:") ++ ascii " " ++ ascii "EPYC" ++ ascii " \n" ++
        column (ascii "CPU Cores:") ++ ascii " " ++ signedDecimal (atoi (ascii "16")) ++
          ascii " \n" ++
        column (ascii "CPU Model:") ++ ascii " " ++ ascii "AuthenticAMD" ++ ascii " \n") := by
  have short : ∀ text : Bytes, text.length < 255 → (∀ b ∈ text, b ≠ 10) →
      (∀ label : CpuLabel, ¬ label.text <+: text ++ [10]) → (CpuField.other text).Proper := by
    intro text fits plain other
    refine ⟨plain, fun piece member => ?_⟩
    rw [pieces_line plain fits, List.mem_singleton] at member
    exact member ▸ other
  have power : (CpuField.other (ascii "power management:")).Proper :=
    short _ (by decide) (by decide) fun label => by cases label <;> decide
  have empty : (CpuField.other []).Proper :=
    short _ (by decide) (by decide) fun label => by cases label <;> decide
  refine cpu_info_read ?_
  simp only [List.forall_mem_cons]
  exact ⟨⟨by decide, by decide⟩, ⟨by decide, by decide⟩, ⟨by decide, by decide⟩, power, empty,
    ⟨by decide, by decide⟩, ⟨by decide, by decide⟩, power, empty, by simp⟩

/-! ## `get_memory_info` -/

structure MemoryInfo where
  memTotal : Int
  memAvailable : Int
  deriving DecidableEq

/-- `%ld` with `strtol`'s clamping. -/
def scanLong (s : Bytes) : Option Int := (numeral s).map fun n => max longMin (min longMax n)

/-- `sscanf(line, "<label>: %ld", &n)` -/
def labelled (label line : Bytes) : Option Int :=
  if startsWith line (label ++ ascii ":") then scanLong (line.drop (label.length + 1)) else none

/-- One pass of the loop of `get_memory_info`.  The second comparison leaves out
    the last letter of its label. -/
def memoryLine (info : MemoryInfo) (line : Bytes) : MemoryInfo :=
  let info :=
    if startsWith line (ascii "MemTotal") then
      { info with memTotal := (labelled (ascii "MemTotal") line).getD info.memTotal }
    else info
  if startsWith line (ascii "MemAvailabl") then
    { info with memAvailable := (labelled (ascii "MemAvailable") line).getD info.memAvailable }
  else info

/-- `get_memory_info` on what the file holds. -/
def getMemoryInfo (file : Bytes) : MemoryInfo :=
  ((pieces 43 file).map untilZero).foldl memoryLine ⟨0, 0⟩

/-- What is printed of it. -/
def MemoryInfo.text (info : MemoryInfo) : Bytes :=
  column (ascii "Memory Configured:") ++ ascii " " ++ signedDecimal info.memTotal ++
    ascii " KB \n" ++
    column (ascii "Memory Available:") ++ ascii " " ++ signedDecimal info.memAvailable ++
      ascii " KB \n"

/-- The labels that `get_memory_info` looks for. -/
inductive MemoryLabel where
  | memTotal
  | memAvailable
  deriving DecidableEq

def MemoryLabel.text : MemoryLabel → Bytes
  | .memTotal => ascii "MemTotal"
  | .memAvailable => ascii "MemAvailable"

/-- A line of `/proc/meminfo`. -/
inductive MemoryField where
  /-- One that `get_memory_info` looks for: a label, a colon, spaces, a number, and its
      unit. -/
  | known (label : MemoryLabel) (spaces : Nat) (size : Nat) (unit : Bytes)
  /-- Any other one, with a unit or without. -/
  | other (text : Bytes)

namespace MemoryField

/-- The line without its newline. -/
def content : MemoryField → Bytes
  | .known label spaces size unit =>
      label.text ++ [58] ++ List.replicate spaces 32 ++ decimal size ++ unit
  | .other text => text

/-- A line that `get_memory_info` reads right: one with a label that it looks for fits
    into the buffer of 44 bytes, and of another one no piece looks like it. -/
def Proper : MemoryField → Prop
  | .known label spaces size unit =>
      (∀ b ∈ unit, b ≠ 10 ∧ b ≠ 0) ∧ (∀ b ∈ unit.head?, isdigit b = false) ∧
        (size : Int) ≤ longMax ∧ (known label spaces size unit).content.length < 43
  | .other text =>
      (∀ b ∈ text, b ≠ 10) ∧
        ∀ piece ∈ pieces 43 (text ++ [10]), ∀ label : MemoryLabel, ¬ label.text ++ [58] <+: piece

/-- What a line changes. -/
def apply : MemoryField → MemoryInfo → MemoryInfo
  | .known .memTotal _ size _, info => { info with memTotal := size }
  | .known .memAvailable _ size _, info => { info with memAvailable := size }
  | .other _, info => info

/-- The size on a line with a label. -/
def size? (label : MemoryLabel) : MemoryField → Option Nat
  | .known own _ size _ => if own = label then some size else none
  | .other _ => none

variable {label : MemoryLabel} {spaces size : Nat} {unit : Bytes}

theorem content_plain (plain : ∀ b ∈ unit, b ≠ 10 ∧ b ≠ 0) :
    ∀ b ∈ (known label spaces size unit).content, b ≠ 10 ∧ b ≠ 0 := by
  intro b member
  simp only [content, List.mem_append, List.mem_replicate] at member
  rcases member with (((inside | inside) | ⟨_, rfl⟩) | inside) | inside
  · revert b
    cases label <;> decide
  · revert b
    decide
  · decide
  · have digit := decimal_isdigit _ b inside
    constructor
    · rintro rfl
      exact absurd digit (by decide)
    · rintro rfl
      exact absurd digit (by decide)
  · exact plain b inside

/-- What `sscanf` with a label finds on a line. -/
theorem labelled_content (own : MemoryLabel) (ends : ∀ b ∈ unit.head?, isdigit b = false)
    (small : (size : Int) ≤ longMax) :
    labelled own.text ((known label spaces size unit).content ++ [10]) =
      if label = own then some (size : Int) else none := by
  by_cases same : label = own
  · subst same
    have behind : ∀ b ∈ (unit ++ [10]).head?, isdigit b = false := by
      cases unit with
      | nil => exact forall_head_cons (by decide) _
      | cons b unit => exact forall_head_cons (ends b rfl) _
    have number : numeral (List.replicate spaces 32 ++ decimal size ++ (unit ++ [10])) =
        some (size : Int) := by
      rw [numeral_spaced (by simp [show isspace 32 = true by decide]) (decimal_ne_nil _)
        (decimal_isdigit _) behind, digits_decimal]
    have kept : max longMin (min longMax (size : Int)) = size := by
      simp only [longMax, longMin] at *
      omega
    have line : (known label spaces size unit).content ++ [10] =
        (label.text ++ ascii ":") ++
          (List.replicate spaces 32 ++ decimal size ++ (unit ++ [10])) := by
      simp [content, show ascii ":" = [58] by decide]
    have starts : startsWith ((known label spaces size unit).content ++ [10])
        (label.text ++ ascii ":") = true := by
      rw [line, startsWith_iff]
      exact List.prefix_append _ _
    have rest : ((known label spaces size unit).content ++ [10]).drop (label.text.length + 1) =
        List.replicate spaces 32 ++ decimal size ++ (unit ++ [10]) := by
      rw [line, show label.text.length + 1 = (label.text ++ ascii ":").length by
        rw [List.length_append, show (ascii ":").length = 1 by decide], List.drop_left]
    rw [labelled, if_pos starts, rest, scanLong, number]
    simp [kept]
  · have apart : startsWith ((known label spaces size unit).content ++ [10])
        (own.text ++ ascii ":") = false := by
      refine Bool.eq_false_iff.mpr fun begins => same ?_
      have here : own.text <+: (known label spaces size unit).content ++ [10] :=
        (List.prefix_append _ _).trans (startsWith_iff.mp begins)
      have mine : label.text <+: (known label spaces size unit).content ++ [10] := by
        simp only [content, List.append_assoc]
        exact List.prefix_append _ _
      have nested := List.prefix_or_prefix_of_prefix here mine
      revert nested
      cases label <;> cases own <;> decide
    simp [labelled, apart, same]

theorem memoryLine_known (info : MemoryInfo) (ends : ∀ b ∈ unit.head?, isdigit b = false)
    (small : (size : Int) ≤ longMax) :
    memoryLine info ((known label spaces size unit).content ++ [10]) =
      (known label spaces size unit).apply info := by
  have total := @labelled_content label spaces size unit .memTotal ends small
  have available := @labelled_content label spaces size unit .memAvailable ends small
  simp only [MemoryLabel.text] at total available
  have starts : ∀ literal : Bytes, literal <+: label.text →
      startsWith ((known label spaces size unit).content ++ [10]) literal = true := by
    intro literal begins
    rw [startsWith_iff]
    refine begins.trans ?_
    simp only [content, List.append_assoc]
    exact List.prefix_append _ _
  cases label with
  | memTotal =>
      have first := starts (ascii "MemTotal") (List.prefix_refl _)
      simp [memoryLine, apply, total, available, first]
  | memAvailable =>
      have second := starts (ascii "MemAvailabl") (by decide)
      simp [memoryLine, apply, total, available, second]

/-- On a piece without a label and its colon nothing is found. -/
theorem memoryLine_other {info : MemoryInfo} {line : Bytes}
    (other : ∀ label : MemoryLabel, ¬ label.text ++ [58] <+: line) :
    memoryLine info line = info := by
  have quiet : ∀ label : MemoryLabel, labelled label.text line = none := by
    intro label
    have apart : startsWith line (label.text ++ ascii ":") = false :=
      Bool.eq_false_iff.mpr fun starts => other label (startsWith_iff.mp starts)
    simp [labelled, apart]
  have total := quiet .memTotal
  have available := quiet .memAvailable
  simp only [MemoryLabel.text] at total available
  simp [memoryLine, total, available]

/-- What the pieces of a line change. -/
theorem memoryLine_pieces (info : MemoryInfo) {field : MemoryField} (proper : field.Proper) :
    ((pieces 43 (field.content ++ [10])).map untilZero).foldl memoryLine info =
      field.apply info := by
  cases field with
  | known label spaces size unit =>
      obtain ⟨plain, ends, small, fits⟩ := proper
      have whole : untilZero ((known label spaces size unit).content ++ [10]) =
          (known label spaces size unit).content ++ [10] := by
        refine untilZero_eq_self fun b member => ?_
        rcases List.mem_append.mp member with inside | inside
        · exact (content_plain plain b inside).2
        · simp at inside
          subst inside
          decide
      rw [pieces_line (fun b inside => (content_plain plain b inside).1) fits]
      simp [whole, memoryLine_known info ends small]
  | other text =>
      obtain ⟨-, quiet⟩ := proper
      simp only [content, apply]
      generalize pieces 43 (text ++ [10]) = ps at quiet
      induction ps with
      | nil => rfl
      | cons piece ps ih =>
          have here : memoryLine info (untilZero piece) = info := by
            refine memoryLine_other fun label starts => ?_
            exact quiet piece List.mem_cons_self label (starts.trans (List.takeWhile_prefix _))
          have later := ih fun piece inside => quiet piece (List.mem_cons_of_mem _ inside)
          simpa [here] using later

theorem Proper.no_newline {field : MemoryField} (proper : field.Proper) :
    ∀ b ∈ field.content, b ≠ 10 := by
  cases field with
  | known label spaces size unit => exact fun b inside => (content_plain proper.1 b inside).1
  | other text => exact proper.1

end MemoryField

/-- The file that a list of lines makes. -/
def memoryFile (fields : List MemoryField) : Bytes :=
  (fields.map fun field => field.content ++ [10]).flatten

/-- The last size that a label has, or 0. -/
def lastSize (label : MemoryLabel) (fields : List MemoryField) : Nat :=
  ((fields.filterMap (MemoryField.size? label)).getLast?).getD 0

theorem lastSize_concat (label : MemoryLabel) (fields : List MemoryField) (field : MemoryField) :
    lastSize label (fields ++ [field]) = (field.size? label).getD (lastSize label fields) := by
  cases found : field.size? label <;> simp [lastSize, List.filterMap_append, found]

theorem getMemoryInfo_fold {fields : List MemoryField} (proper : ∀ field ∈ fields, field.Proper)
    (info : MemoryInfo) :
    ((pieces 43 (memoryFile fields)).map untilZero).foldl memoryLine info =
      fields.foldl (fun info field => field.apply info) info := by
  induction fields generalizing info with
  | nil => simp [memoryFile]
  | cons field fields ih =>
      have here := proper field List.mem_cons_self
      have file : memoryFile (field :: fields) = field.content ++ 10 :: memoryFile fields := by
        simp [memoryFile]
      rw [file, pieces_append (by decide) here.no_newline, List.map_append, List.foldl_append,
        MemoryField.memoryLine_pieces info here]
      exact ih (fun f inside => proper f (List.mem_cons_of_mem _ inside)) _

theorem foldl_apply_memory (fields : List MemoryField) :
    fields.foldl (fun info field => field.apply info) ⟨0, 0⟩ =
      ⟨lastSize .memTotal fields, lastSize .memAvailable fields⟩ := by
  induction fields using List.reverseRecOn with
  | nil => rfl
  | append_singleton fields field ih =>
      rw [List.foldl_append, ih]
      simp only [List.foldl_cons, List.foldl_nil, lastSize_concat]
      cases field with
      | known label spaces size unit =>
          cases label <;> simp [MemoryField.apply, MemoryField.size?]
      | other text => simp [MemoryField.apply, MemoryField.size?]

/-- `/proc/meminfo` is read right, whatever its other lines are: what is printed are the
    sizes of the last lines with the two labels, and 0 for a label that no line has. -/
theorem memory_info_read {fields : List MemoryField} (proper : ∀ field ∈ fields, field.Proper) :
    (getMemoryInfo (memoryFile fields)).text =
      column (ascii "Memory Configured:") ++ ascii " " ++
          decimal (lastSize .memTotal fields) ++ ascii " KB \n" ++
        column (ascii "Memory Available:") ++ ascii " " ++
          decimal (lastSize .memAvailable fields) ++ ascii " KB \n" := by
  rw [getMemoryInfo, getMemoryInfo_fold proper, foldl_apply_memory]
  rfl

theorem memory_info_read_huge :
    (getMemoryInfo (memoryFile [.known .memTotal 6 8 (ascii " kB"),
        .known .memAvailable 3 5 (ascii " kB"), .other (ascii "HugePages_Total:       0")])).text =
      column (ascii "Memory Configured:") ++ ascii " " ++ decimal 8 ++ ascii " KB \n" ++
        column (ascii "Memory Available:") ++ ascii " " ++ decimal 5 ++ ascii " KB \n" := by
  have huge : (MemoryField.other (ascii "HugePages_Total:       0")).Proper := by
    refine ⟨by decide, fun piece member label => ?_⟩
    rw [pieces_line (by decide) (by decide), List.mem_singleton] at member
    subst member
    cases label <;> decide
  have blank : ∀ b ∈ (ascii " kB").head?, isdigit b = false := by
    rintro b ⟨⟩
    rfl
  refine memory_info_read ?_
  simp only [List.forall_mem_cons]
  exact ⟨⟨by decide, blank, by decide, by decide⟩, ⟨by decide, blank, by decide, by decide⟩, huge,
    by simp⟩

end SysProg.M5
