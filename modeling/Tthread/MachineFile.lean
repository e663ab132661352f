/-
# Machine specifications

A machine is described by the name of its model and sections, each with a table: its name, its
parameters, its shape and its rows. The rows are those of the CSV reader. A specification is read
until it runs out of rows, wherever that happens: a section that is cut off is left out without an
error, whatever its name. A table in one column or in one row is a list of strings and not of rows,
and where the program expects rows it takes such a string for a row of characters.
-/

import Mathlib.Algebra.Group.Defs
import Mathlib.Algebra.Ring.Rat
import Mathlib.Data.List.Induction
import Mathlib.Data.List.ReduceOption
import Mathlib.Logic.Function.Basic
import Tthread.Library.Folds
import Tthread.Library.Readers

namespace Tthread.Racksim.MachineFile

open Folds Readers

/-- The cells of a row of the CSV reader. A blank line is a row without cells. -/
abbrev Row := List String

/-- What reading a specification raises. -/
inductive Fault
  | stopIteration
  | indexError
  | valueError
  | typeError
  | attributeError
  | networkXError
  | unexpectedTable (name : String)
  | expectedCores (expected found : ℕ)
  | expectedDomains (expected found : ℕ)
  deriving DecidableEq

/-- What `numpy.matrix` and `from_numpy_matrix` raise. -/
inductive Raised
  | valueError
  | networkXError

def Raised.fault : Raised → Fault
  | .valueError => .valueError
  | .networkXError => .networkXError

/-- What a name in the parameters of a table stands for. -/
abbrev Params := String → Option String

/-- The data of a table: a list of strings, or a list of rows. -/
inductive Table
  | flat (cells : List String)
  | nested (rows : List Row)
  deriving DecidableEq

/-- `len(tab_data)` -/
def Table.length : Table → ℕ
  | .flat cells => cells.length
  | .nested rows => rows.length

/-- What the loops `for row in tab_data: for cell in row` see: the rows of a flat table are its
strings, and their cells the characters. -/
def Table.rows : Table → List Row
  | .flat cells => cells.map fun cell => cell.toList.map String.singleton
  | .nested rows => rows

inductive CpuTable
  | o
  | O
  deriving DecidableEq

inductive NumaTable
  | g
  | G
  | L
  deriving DecidableEq

/-- The attributes that tables are stored in. -/
inductive Slot
  | cpu2numa
  | cpu (table : CpuTable)
  | numa (table : NumaTable)
  deriving DecidableEq

/-- `names` -/
def names : String → Option Slot
  | "CPU-to-NUMA" => some .cpu2numa
  | "CPU-o" => some (.cpu .o)
  | "CPU-O" => some (.cpu .O)
  | "NUMA-g" => some (.numa .g)
  | "NUMA-G" => some (.numa .G)
  | "NUMA-L" => some (.numa .L)
  | _ => none

/-- `Architecture`, with graphs of the type that `from_numpy_matrix` returns. -/
@[ext]
structure Machine (α γ : Type) where
  model : String
  cpu2numa : Option (List ℤ)
  cpu : CpuTable → Option (List α)
  numa : NumaTable → Option γ
  /-- Number of CPU cores -/
  cores : Option ℕ
  /-- Number of NUMA domains -/
  domains : Option ℕ

variable {α γ : Type}

/-- `Architecture.__init__` -/
def Machine.new (model : String) : Machine α γ where
  model := model
  cpu2numa := none
  cpu _ := none
  numa _ := none
  cores := none
  domains := none

/-! ## Tables of the machine -/

/-- The conversion of a string to a number, which fails with a `ValueError`. -/
def converted {β : Type} (number : String → Option β) (cell : String) : Except Fault β :=
  match number cell with
  | some n => .ok n
  | none => .error .valueError

/-- The list of converted entries of a table of the CPUs. Only strings can be converted. -/
def entries {β : Type} (number : String → Except Fault β) : Table → Except Fault (List β)
  | .flat cells => cells.mapM number
  | .nested [] => .ok []
  | .nested (_ :: _) => .error .typeError

/-- The number of entries is the one that is known already, if there is one. -/
def expect (known : Option ℕ) (found : ℕ) (fault : ℕ → ℕ → Fault) : Except Fault Unit :=
  match known with
  | none => .ok ()
  | some expected => if expected = found then .ok () else .error (fault expected found)

section Reading

-- `numpy.matrix` and `from_numpy_matrix`, one after the other, are a parameter
variable [Mul α] [One α] (int : String → Option ℤ) (float : String → Option α)
  (fromMatrix : List (List α) → Except Raised γ)

/-- The factor of a table that may have one. -/
def multOf (params : Params) : Except Fault α :=
  match params "mult" with
  | some mult => converted float mult
  | none => .ok 1

/-- `set_table`. A second table of a name takes the place of the first: the exception for it is
made and not raised. -/
def Machine.setTable (arch : Machine α γ) (tabName : String) (params : Params) (tab : Table) :
    Except Fault (Machine α γ) :=
  if arch.model ≠ "LogGOP" then .error .attributeError
  else
    match names tabName with
    | none => .error (.unexpectedTable tabName)
    | some .cpu2numa => do
        expect arch.cores tab.length .expectedCores
        let map ← entries (converted int) tab
        .ok { arch with cores := some tab.length, cpu2numa := some map }
    | some (.cpu table) => do
        let mult ← multOf float params
        expect arch.cores tab.length .expectedCores
        let times ← entries (fun cell => (mult * ·) <$> converted float cell) tab
        .ok { arch with
          cores := some tab.length
          cpu := Function.update arch.cpu table (some times) }
    | some (.numa table) => do
        let mult ← multOf float params
        expect arch.domains tab.length .expectedDomains
        -- the factor goes to each cell before the matrix is made
        let data ← tab.rows.mapM fun row =>
          row.mapM fun cell => (mult * ·) <$> converted float cell
        let graph ← (fromMatrix data).mapError Raised.fault
        .ok { arch with
          domains := some tab.length
          numa := Function.update arch.numa table (some graph) }

/-! ## The parser -/

/-- A function that reads with `next(mst_reader)`. -/
abbrev MstReader := Reader Fault Row

/-- The parameters with one more. -/
def addParam (params : Params) : Row → Except Fault Params
  | [k, v] => .ok (Function.update params k (some v))
  | _ => .error .valueError

/-- `__mst_read_params` -/
def mstReadParams (n : ℤ) : MstReader Params :=
  times .stopIteration addParam n.toNat fun _ => none

/-- A list of first cells with one more. -/
def addFirst (cells : List String) : Row → Except Fault (List String)
  | [] => .error .indexError
  | cell :: _ => .ok (cells ++ [cell])

/-- A list of rows with one more. -/
def addRow (res : List Row) (row : Row) : Except Fault (List Row) := .ok (res ++ [row])

/-- `(n, m) = map(int, list(next(mst_reader)))` -/
def shapeOf : Row → Except Fault (ℤ × ℤ)
  | [n, m] => do
      let n ← converted int n
      let m ← converted int m
      .ok (n, m)
  | _ => .error .valueError

/-- `__mst_read_table` -/
def mstReadTable : MstReader Table := do
  let row ← next .stopIteration
  let shape ← shapeOf int row
  -- one column: the first cells; one row: the whole row
  if shape.2 = 1 then
    let cells ← times .stopIteration addFirst shape.1.toNat []
    return .flat cells
  else if shape.1 = 1 then
    let row ← next .stopIteration
    return .flat row
  else
    let res ← times .stopIteration addRow shape.1.toNat []
    return .nested res

/-- `tab_header[0]`, and `tab_header[1]` as a number. -/
def headerOf : Row → Except Fault (String × ℤ)
  | tabName :: count :: _ => do
      let nparams ← converted int count
      .ok (tabName, nparams)
  | _ => .error .indexError

/-- A round of the loop of `__parse_mst`. -/
def readSection (arch : Machine α γ) : MstReader (Machine α γ) := do
  let tabHeader ← next .stopIteration
  -- a blank line
  if tabHeader = [] then
    return arch
  else
    let header ← headerOf int tabHeader
    let params ← mstReadParams header.2
    let tab ← mstReadTable int
    arch.setTable int float fromMatrix header.1 params tab

/-- `__parse_mst`. A round takes a row at least, so that the rounds are enough. -/
def parseMst : List Row → Except Fault (Machine α γ)
  | [] => .error .stopIteration
  | [] :: _ => .error .indexError
  | (model :: _) :: rows =>
      untilOut .stopIteration (readSection int float fromMatrix) (rows.length + 1)
        (Machine.new model) rows

end Reading

/-! ## What a table adds to the machine -/

/-- The entries of a table of the CPUs are strings that are numbers. -/
def Table.Converts {β : Type} (number : String → Option β) : Table → Prop
  | .flat cells => ∀ cell ∈ cells, (number cell).isSome
  | .nested rows => rows = []

/-- The entries of a table of the CPUs. -/
def Table.values {β : Type} (number : String → Option β) : Table → List β
  | .flat cells => cells.filterMap number
  | .nested _ => []

/-- The entries of a table of the domains are numbers, in as many columns as there are rows. -/
def Table.Square {β : Type} (number : String → Option β) (tab : Table) : Prop :=
  tab.rows ≠ [] ∧ ∀ row ∈ tab.rows, row.length = tab.length ∧ ∀ cell ∈ row, (number cell).isSome

instance {β : Type} (number : String → Option β) (tab : Table) : Decidable (tab.Square number) :=
  inferInstanceAs (Decidable (_ ∧ _))

/-- The entries of a table of the domains. -/
def Table.matrix {β : Type} (number : String → Option β) (tab : Table) : List (List β) :=
  tab.rows.map fun row => row.filterMap number

/-- The number of entries that a table has in a machine with so many CPUs and domains. -/
def Slot.size (cores domains : ℕ) : Slot → ℕ
  | .cpu2numa => cores
  | .cpu _ => cores
  | .numa _ => domains

section Tables

variable [Mul α] [One α] (int : String → Option ℤ) (float : String → Option α)
  (fromMatrix : List (List α) → Except Raised γ)

/-- The factor of the parameters, if it is a number. -/
def factor (params : Params) : Option α :=
  match params "mult" with
  | some mult => float mult
  | none => some 1

/-- A number times the factor of the parameters. -/
def scaled (params : Params) (cell : String) : Option α := do
  let mult ← factor float params
  let number ← float cell
  return mult * number

/-- The table can be stored in this attribute. -/
def Readable (params : Params) (tab : Table) : Slot → Prop
  | .cpu2numa => tab.Converts int
  | .cpu _ => (factor float params).isSome ∧ tab.Converts float
  | .numa _ => (factor float params).isSome ∧ tab.Square float

/-- No other number of entries is known. -/
def Machine.Fits (arch : Machine α γ) (tab : Table) : Slot → Prop
  | .cpu2numa => ∀ known ∈ arch.cores, known = tab.length
  | .cpu _ => ∀ known ∈ arch.cores, known = tab.length
  | .numa _ => ∀ known ∈ arch.domains, known = tab.length

/-- The machine with the table in this attribute. -/
def Machine.withTable (arch : Machine α γ) (params : Params) (tab : Table) : Slot → Machine α γ
  | .cpu2numa => { arch with cores := some tab.length, cpu2numa := some (tab.values int) }
  | .cpu table => { arch with
      cores := some tab.length
      cpu := Function.update arch.cpu table (some (tab.values (scaled float params))) }
  | .numa table => { arch with
      domains := some tab.length
      numa := Function.update arch.numa table
        (fromMatrix (tab.matrix (scaled float params))).toOption }

end Tables

/-! ## Graphs -/

/-- The rows are those of a square matrix with a row at least. -/
def SquareRows {β : Type} (rows : List (List β)) : Prop :=
  rows ≠ [] ∧ ∀ row ∈ rows, row.length = rows.length

/-- What is documented of `numpy.matrix` and of `from_numpy_matrix`: the rows have to be of one
length, and the matrix has to be square. -/
def TakesSquares (fromMatrix : List (List α) → Except Raised γ) : Prop :=
  ∀ rows, (∃ graph, fromMatrix rows = .ok graph) ↔ SquareRows rows

/-- The other thing documented of `from_numpy_matrix`: the rows are for the nodes of the graph. -/
def NodePerRow (fromMatrix : List (List α) → Except Raised γ) (nodes : γ → ℕ) : Prop :=
  ∀ rows graph, fromMatrix rows = .ok graph → nodes graph = rows.length

variable {β : Type} {number : String → Option β}

theorem converted_ok {cell : String} {n : β} :
    converted number cell = .ok n ↔ number cell = some n := by
  rw [converted]
  cases number cell <;> simp

theorem mapM_converted {cells : List String} {ns : List β} :
    cells.mapM (converted number) = .ok ns ↔
      (∀ cell ∈ cells, (number cell).isSome) ∧ ns = cells.filterMap number := by
  induction cells generalizing ns with
  | nil =>
    constructor
    · rintro ⟨⟩
      exact ⟨fun _ member => absurd member List.not_mem_nil, rfl⟩
    · rintro ⟨-, rfl⟩
      rfl
  | cons cell cells ih =>
    simp only [List.mapM_cons, bind_ok, converted_ok, ih, List.forall_mem_cons]
    constructor
    · rintro ⟨n, found, _, ⟨others, rfl⟩, ⟨⟩⟩
      exact ⟨⟨by rw [found]; rfl, others⟩, by rw [List.filterMap_cons_some found]⟩
    · rintro ⟨⟨isNumber, others⟩, rfl⟩
      obtain ⟨n, found⟩ := Option.isSome_iff_exists.mp isNumber
      exact ⟨n, found, _, ⟨others, rfl⟩, by rw [List.filterMap_cons_some found]; rfl⟩

theorem mapM_rows {rows : List Row} {data : List (List β)} :
    rows.mapM (fun row => row.mapM (converted number)) = .ok data ↔
      (∀ row ∈ rows, ∀ cell ∈ row, (number cell).isSome) ∧
        data = rows.map fun row => row.filterMap number := by
  induction rows generalizing data with
  | nil =>
    constructor
    · rintro ⟨⟩
      exact ⟨fun _ member => absurd member List.not_mem_nil, rfl⟩
    · rintro ⟨-, rfl⟩
      rfl
  | cons row rows ih =>
    simp only [List.mapM_cons, bind_ok, mapM_converted, ih, List.forall_mem_cons, List.map_cons]
    constructor
    · rintro ⟨_, ⟨first, rfl⟩, _, ⟨others, rfl⟩, ⟨⟩⟩
      exact ⟨⟨first, others⟩, rfl⟩
    · rintro ⟨⟨first, others⟩, rfl⟩
      exact ⟨_, ⟨first, rfl⟩, _, ⟨others, rfl⟩, rfl⟩

theorem entries_ok {tab : Table} {ns : List β} :
    entries (converted number) tab = .ok ns ↔ tab.Converts number ∧ ns = tab.values number := by
  match tab with
  | .flat cells => exact mapM_converted
  | .nested [] => simp [entries, Table.Converts, Table.values, eq_comm]
  | .nested (_ :: _) => simp [entries, Table.Converts]

theorem mapError_ok {result : Except Raised γ} {graph : γ} :
    result.mapError Raised.fault = .ok graph ↔ result = .ok graph := by
  cases result <;> simp [Except.mapError]

theorem expect_ok {known : Option ℕ} {found : ℕ} {fault : ℕ → ℕ → Fault} {done : Unit} :
    expect known found fault = .ok done ↔ ∀ n ∈ known, n = found := by
  cases known with
  | none => simp [expect]
  | some n => by_cases same : n = found <;> simp [expect, same]

theorem Table.length_rows (tab : Table) : tab.rows.length = tab.length := by
  cases tab <;> simp [Table.rows, Table.length]

/-- In one column or one row, each cell of a table of the domains has as many characters as there
are cells, and each character is a number: a machine of one domain has numbers of one digit. -/
theorem square_flat {number : String → Option β} {cells : List String} :
    (Table.flat cells).Square number ↔
      cells ≠ [] ∧ ∀ cell ∈ cells, cell.length = cells.length ∧
        ∀ c ∈ cell.toList, (number (String.singleton c)).isSome := by
  simp only [Table.Square, Table.rows, Table.length, List.forall_mem_map, List.length_map, ne_eq,
    List.map_eq_nil_iff, String.length_toList]

/-- The rows of a table of numbers are those of a square matrix if the table is square. -/
theorem squareRows_matrix {scale : String → Option β} {tab : Table}
    (same : ∀ cell, (scale cell).isSome = (number cell).isSome)
    (numbers : ∀ row ∈ tab.rows, ∀ cell ∈ row, (scale cell).isSome) :
    SquareRows (tab.matrix scale) ↔ tab.Square number := by
  have width : ∀ row ∈ tab.rows, (row.filterMap scale).length = row.length := fun row member =>
    List.filterMap_length_eq_length.mpr (numbers row member)
  rw [SquareRows, Table.Square, Table.matrix, List.length_map, tab.length_rows, ne_eq,
    List.map_eq_nil_iff]
  refine and_congr_right fun _ => ?_
  rw [List.forall_mem_map]
  refine forall₂_congr fun row member => ?_
  rw [width row member]
  refine (and_iff_left fun cell inside => ?_).symm
  rw [← same]
  exact numbers row member cell inside

/-- What a library raises does not end the lines. -/
theorem mapError_clean (result : Except Raised γ) :
    Clean .stopIteration (result.mapError Raised.fault) := by
  match result with
  | .ok graph => exact Clean.ok graph
  | .error .valueError => exact fun same => by cases same
  | .error .networkXError => exact fun same => by cases same

variable [Mul α] [One α] {int : String → Option ℤ} {float : String → Option α}
  {fromMatrix : List (List α) → Except Raised γ}

omit [Mul α] in
theorem multOf_ok {params : Params} {mult : α} :
    multOf float params = .ok mult ↔ factor float params = some mult := by
  rw [multOf, factor]
  cases params "mult" with
  | none => exact ⟨fun same => congrArg some (Except.ok.inj same), fun same => by cases same; rfl⟩
  | some cell => exact converted_ok

/-- A number that is converted and multiplied by a factor that is known. -/
theorem converted_scaled {params : Params} {mult : α} (known : factor float params = some mult) :
    (fun cell => (mult * ·) <$> converted float cell) = converted (scaled float params) := by
  funext cell
  rw [converted, converted, scaled, known]
  cases float cell <;> rfl

theorem scaled_isSome {params : Params} {mult : α} (known : factor float params = some mult)
    (cell : String) : (scaled float params cell).isSome = (float cell).isSome := by
  rw [scaled, known]
  cases float cell <;> rfl

theorem converts_scaled {params : Params} {mult : α} (known : factor float params = some mult)
    {tab : Table} : tab.Converts (scaled float params) ↔ tab.Converts float := by
  cases tab with
  | flat cells => simp only [Table.Converts, scaled_isSome known]
  | nested rows => rfl

/-- A table is stored if its name and its entries are good and no other number of entries is
known. -/
theorem setTable_ok (takes : TakesSquares fromMatrix) {arch arch' : Machine α γ} {tabName : String}
    {params : Params} {tab : Table} :
    arch.setTable int float fromMatrix tabName params tab = .ok arch' ↔
      arch.model = "LogGOP" ∧ ∃ slot, names tabName = some slot ∧
        Readable int float params tab slot ∧ arch.Fits tab slot ∧
        arch' = arch.withTable int float fromMatrix params tab slot := by
  rw [Machine.setTable]
  by_cases model : arch.model = "LogGOP"
  · rw [if_neg (not_not_intro model)]
    match names tabName with
    | none => simp
    | some .cpu2numa =>
      simp only [bind_ok, expect_ok, entries_ok, Except.ok.injEq, model, true_and,
        Option.some.injEq, exists_eq_left', Readable, Machine.Fits, Machine.withTable]
      constructor
      · rintro ⟨_, known, _, ⟨reads, rfl⟩, rfl⟩
        exact ⟨reads, known, rfl⟩
      · rintro ⟨reads, known, rfl⟩
        exact ⟨(), known, _, ⟨reads, rfl⟩, rfl⟩
    | some (.cpu table) =>
      simp only [bind_ok, expect_ok, multOf_ok, Except.ok.injEq, model, true_and,
        Option.some.injEq, exists_eq_left', Readable, Machine.Fits, Machine.withTable]
      constructor
      · rintro ⟨mult, isFactor, _, known, times, entries, rfl⟩
        rw [converted_scaled isFactor, entries_ok, converts_scaled isFactor] at entries
        obtain ⟨reads, rfl⟩ := entries
        exact ⟨⟨by rw [isFactor]; rfl, reads⟩, known, rfl⟩
      · rintro ⟨⟨hasFactor, reads⟩, known, rfl⟩
        obtain ⟨mult, isFactor⟩ := Option.isSome_iff_exists.mp hasFactor
        refine ⟨mult, isFactor, (), known, _, ?_, rfl⟩
        rw [converted_scaled isFactor, entries_ok, converts_scaled isFactor]
        exact ⟨reads, rfl⟩
    | some (.numa table) =>
      simp only [bind_ok, expect_ok, multOf_ok, mapError_ok, Except.ok.injEq, model, true_and,
        Option.some.injEq, exists_eq_left', Readable, Machine.Fits, Machine.withTable]
      constructor
      · rintro ⟨mult, isFactor, _, known, data, cells, graph, made, rfl⟩
        rw [converted_scaled isFactor, mapM_rows] at cells
        obtain ⟨numbers, rfl⟩ := cells
        have square := (takes (tab.matrix (scaled float params))).mp ⟨graph, made⟩
        rw [squareRows_matrix (fun cell => scaled_isSome isFactor cell) numbers] at square
        refine ⟨⟨by rw [isFactor]; rfl, square⟩, known, ?_⟩
        rw [Table.matrix, made]
        rfl
      · rintro ⟨⟨hasFactor, isSquare⟩, known, rfl⟩
        obtain ⟨mult, isFactor⟩ := Option.isSome_iff_exists.mp hasFactor
        have numbers : ∀ row ∈ tab.rows, ∀ cell ∈ row, (scaled float params cell).isSome := by
          intro row member cell inside
          rw [scaled_isSome isFactor]
          exact (isSquare.2 row member).2 cell inside
        obtain ⟨graph, made⟩ := (takes _).mpr
          ((squareRows_matrix (fun cell => scaled_isSome isFactor cell) numbers).mpr isSquare)
        refine ⟨mult, isFactor, (), known, tab.matrix (scaled float params), ?_, graph, made, ?_⟩
        · rw [converted_scaled isFactor, mapM_rows]
          exact ⟨numbers, rfl⟩
        · rw [made]
          rfl
  · rw [if_pos model]
    exact iff_of_false (fun same => by cases same) fun ⟨isModel, _⟩ => model isModel

/-- Storing a table does not run out of lines. -/
theorem setTable_clean {arch : Machine α γ} {tabName : String} {params : Params} {tab : Table} :
    Clean .stopIteration (arch.setTable int float fromMatrix tabName params tab) := by
  have converts {β : Type} (number : String → Option β) (cell : String) :
      Clean .stopIteration (converted number cell) := by
    rw [converted]
    cases number cell <;> exact fun same => by cases same
  have entries {β : Type} (number : String → Except Fault β)
      (clean : ∀ cell, Clean .stopIteration (number cell)) :
      Clean .stopIteration (entries number tab) := by
    match tab with
    | .flat cells => exact Clean.mapM clean
    | .nested [] => exact fun same => by cases same
    | .nested (_ :: _) => exact fun same => by cases same
  have expects (known : Option ℕ) (found : ℕ) (fault : ℕ → ℕ → Fault)
      (other : ∀ m n, fault m n ≠ .stopIteration) :
      Clean .stopIteration (expect known found fault) := by
    cases known with
    | none => exact Clean.ok ()
    | some n =>
      show Clean .stopIteration (if n = found then .ok () else .error (fault n found))
      by_cases same : n = found
      · rw [if_pos same]
        exact Clean.ok ()
      · rw [if_neg same]
        exact fun raised => other n found (Except.error.inj raised)
  have mults : Clean .stopIteration (multOf float params) := by
    rw [multOf]
    cases params "mult" with
    | none => exact Clean.ok 1
    | some mult => exact converts float mult
  have scales (mult : α) (cell : String) :
      Clean .stopIteration ((mult * ·) <$> converted float cell) :=
    (converts float cell).map _
  rw [Machine.setTable]
  by_cases model : arch.model = "LogGOP"
  · rw [if_neg (not_not_intro model)]
    match names tabName with
    | none => exact fun same => by cases same
    | some .cpu2numa =>
      exact (expects _ _ _ (by simp)).bind fun _ =>
        (entries _ (converts int)).bind fun _ => Clean.ok _
    | some (.cpu table) =>
      exact mults.bind fun mult => (expects _ _ _ (by simp)).bind fun _ =>
        (entries _ (scales mult)).bind fun _ => Clean.ok _
    | some (.numa table) =>
      exact mults.bind fun mult => (expects _ _ _ (by simp)).bind fun _ =>
        (Clean.mapM fun row => Clean.mapM (scales mult)).bind fun data =>
          (mapError_clean (fromMatrix data)).bind fun _ => Clean.ok _
  · rw [if_pos model]
    exact fun same => by cases same

/-! ## Specifications as they are written -/

/-- A section as it is written, with the numbers in its header and in its shape. -/
structure Section (int : String → Option ℤ) where
  name : String
  count : String
  params : List (String × String)
  shape : String × String
  columns : ℤ
  table : List Row
  counted : int count = some params.length
  high : int shape.1 = some table.length
  wide : int shape.2 = some columns
  filled : columns = 1 → ∀ row ∈ table, row ≠ []

namespace Section

variable {int : String → Option ℤ} (s : Section int)

/-- The lines of the parameters. -/
def paramRows : List Row := s.params.map fun param => [param.1, param.2]

/-- The lines of the table, behind that of its shape. -/
def tableRows : List Row := [s.shape.1, s.shape.2] :: s.table

/-- The lines of the section. -/
def rows : List Row := [s.name, s.count] :: (s.paramRows ++ s.tableRows)

/-- What the names of the parameters stand for: the last line of a name counts. -/
def dict : Params :=
  s.params.foldl (fun params param => Function.update params param.1 (some param.2)) fun _ => none

/-- The data of the table: the first cells of one column, the cells of one row, or the rows. -/
def tab : Table :=
  if s.columns = 1 then .flat (s.table.filterMap List.head?)
  else
    match s.table with
    | [row] => .flat row
    | rows => .nested rows

end Section

/-- The lines of a section, or a blank line. -/
def linesOf {int : String → Option ℤ} : Option (Section int) → List Row
  | none => [[]]
  | some s => s.rows

/-- The machine with the tables of sections, one after another. -/
def Machine.setTables (float : String → Option α) (fromMatrix : List (List α) → Except Raised γ)
    (arch : Machine α γ) (sections : List (Section int)) : Except Fault (Machine α γ) :=
  sections.foldlM (fun arch s => arch.setTable int float fromMatrix s.name s.dict s.tab) arch

/-! ## Sections are read as they are written -/

section Written

variable {int : String → Option ℤ}

theorem foldlM_addParam (list : List (String × String)) (params : Params) :
    (list.map fun param => [param.1, param.2]).foldlM addParam params =
      .ok (list.foldl (fun params param => Function.update params param.1 (some param.2))
        params) := by
  induction list generalizing params with
  | nil => rfl
  | cons param list ih => exact ih _

theorem foldlM_addFirst {rows : List Row} (filled : ∀ row ∈ rows, row ≠ []) (cells : List String) :
    rows.foldlM addFirst cells = .ok (cells ++ rows.filterMap List.head?) := by
  induction rows generalizing cells with
  | nil => rw [List.filterMap_nil, List.append_nil]; rfl
  | cons row rows ih =>
    obtain ⟨first, others, rfl⟩ := List.exists_cons_of_ne_nil (filled row List.mem_cons_self)
    have rest :=
      ih (fun row member => filled row (List.mem_cons_of_mem _ member)) (cells ++ [first])
    rw [List.append_assoc] at rest
    exact rest

theorem foldlM_addRow (rows res : List Row) : rows.foldlM addRow res = .ok (res ++ rows) := by
  induction rows generalizing res with
  | nil => rw [List.append_nil]; rfl
  | cons row rows ih =>
    have rest := ih (res ++ [row])
    rw [List.append_assoc] at rest
    exact rest

theorem reads_params (s : Section int) :
    Reads .stopIteration (mstReadParams s.params.length) s.paramRows (.ok s.dict) := by
  have read : Reads Fault.stopIteration _ _ _ :=
    Reads.times (foldlM_addParam s.params fun _ => none)
  rwa [List.length_map] at read

theorem reads_table (s : Section int) :
    Reads .stopIteration (mstReadTable int) s.tableRows (.ok s.tab) := by
  have shape : shapeOf int [s.shape.1, s.shape.2] = .ok ((s.table.length : ℤ), s.columns) := by
    simp [shapeOf, converted, s.high, s.wide, bind, Except.bind]
  show Reads _ _ ([_] ++ s.table) _
  refine (Reads.next _).bind (Reads.start shape ?_)
  rw [Section.tab]
  by_cases single : s.columns = 1
  · rw [if_pos single, if_pos single]
    have column := foldlM_addFirst (s.filled single) []
    exact (Reads.times column).finish (Reads.pure _)
  · rw [if_neg single, if_neg single]
    obtain empty | ⟨row, only⟩ | ⟨first, second, others, many⟩ :
        s.table = [] ∨ (∃ row, s.table = [row]) ∨
          ∃ first second others, s.table = first :: second :: others := by
      match s.table with
      | [] => exact .inl rfl
      | [row] => exact .inr (.inl ⟨row, rfl⟩)
      | first :: second :: others => exact .inr (.inr ⟨first, second, others, rfl⟩)
    · have rows := foldlM_addRow s.table []
      rw [empty] at rows ⊢
      exact (Reads.times rows).finish (Reads.pure _)
    · rw [only]
      exact (Reads.next row).finish (Reads.pure _)
    · have rows := foldlM_addRow s.table []
      have two : ((s.table.length : ℕ) : ℤ) ≠ 1 := by rw [many]; simp; omega
      rw [if_neg two]
      rw [many] at rows ⊢
      exact (Reads.times rows).finish (Reads.pure _)

variable (float : String → Option α) (fromMatrix : List (List α) → Except Raised γ)

theorem reads_section (s : Section int) (arch : Machine α γ) :
    Reads .stopIteration (readSection int float fromMatrix arch) s.rows
      (arch.setTable int float fromMatrix s.name s.dict s.tab) := by
  have header : headerOf int [s.name, s.count] = .ok (s.name, (s.params.length : ℤ)) := by
    simp [headerOf, converted, s.counted, bind, Except.bind]
  show Reads _ _ ([_] ++ (s.paramRows ++ s.tableRows)) _
  refine (Reads.next _).bind ?_
  rw [if_neg (List.cons_ne_nil _ _)]
  refine Reads.start header ((reads_params s).bind ((reads_table s).finish ?_))
  exact Reads.lift _

theorem reads_blank (arch : Machine α γ) :
    Reads .stopIteration (readSection int float fromMatrix arch) [[]] (.ok arch) :=
  (Reads.next []).finish (Reads.pure arch)

theorem reads_lines (piece : Option (Section int)) (arch : Machine α γ) :
    Reads .stopIteration (readSection int float fromMatrix arch) (linesOf piece)
      (arch.setTables float fromMatrix piece.toList) := by
  cases piece with
  | none => exact reads_blank float fromMatrix arch
  | some s =>
    have single : arch.setTables float fromMatrix [s] =
        arch.setTable int float fromMatrix s.name s.dict s.tab :=
      foldlM_singleton
    show Reads _ _ _ (arch.setTables float fromMatrix [s])
    rw [single]
    exact reads_section float fromMatrix s arch

theorem setTables_clean (sections : List (Section int)) (arch : Machine α γ) :
    Clean .stopIteration (arch.setTables float fromMatrix sections) :=
  Clean.foldlM fun _ _ => setTable_clean

theorem setTables_append (first others : List (Section int)) (arch : Machine α γ) :
    arch.setTables float fromMatrix (first ++ others) =
      arch.setTables float fromMatrix first >>= fun arch =>
        arch.setTables float fromMatrix others :=
  List.foldlM_append

theorem foldlM_pieces (pieces : List (Option (Section int))) (arch : Machine α γ) :
    pieces.foldlM (fun arch piece => arch.setTables float fromMatrix piece.toList) arch =
      arch.setTables float fromMatrix pieces.reduceOption := by
  induction pieces generalizing arch with
  | nil => rfl
  | cons piece pieces ih =>
    have split : (piece :: pieces).reduceOption = piece.toList ++ pieces.reduceOption := by
      cases piece <;> rfl
    rw [List.foldlM_cons, split, setTables_append]
    simp only [ih]

theorem lines_ne_nil (piece : Option (Section int)) : linesOf piece ≠ [] := by
  cases piece <;> exact List.cons_ne_nil _ _

theorem length_le_lines (pieces : List (Option (Section int))) :
    pieces.length ≤ (pieces.flatMap linesOf).length := by
  induction pieces with
  | nil => exact Nat.le_refl _
  | cons piece pieces ih =>
    have first := List.length_pos_of_ne_nil (lines_ne_nil piece)
    rw [List.flatMap_cons, List.length_append, List.length_cons]
    omega

/-- A specification is read as its sections one after another, whatever is left of the last of them:
blank lines make no difference, and neither does a section that is cut off. -/
theorem parseMst_written (model : String) (more : Row) (pieces : List (Option (Section int)))
    (last : Option (Section int)) (k : ℕ) (short : k < (linesOf last).length) :
    parseMst int float fromMatrix
      ((model :: more) :: (pieces.flatMap linesOf ++ (linesOf last).take k)) =
      (Machine.new model).setTables float fromMatrix pieces.reduceOption := by
  have enough : pieces.length < (pieces.flatMap linesOf ++ (linesOf last).take k).length + 1 := by
    have lines := length_le_lines pieces
    rw [List.length_append]
    omega
  have read := untilOut_blocks (fun arch piece => reads_lines float fromMatrix piece arch)
    (fun arch piece => setTables_clean float fromMatrix piece.toList arch) last short pieces
    (Machine.new model) enough
  exact read.trans (foldlM_pieces float fromMatrix pieces _)

/-- Numbers of one digit. -/
def digit : String → Option ℤ
  | "0" => some 0
  | "1" => some 1
  | "2" => some 2
  | "3" => some 3
  | _ => none

/-- Two CPUs in one domain. -/
def twoCpus : Section digit where
  name := "CPU-to-NUMA"
  count := "0"
  params := []
  shape := ("2", "1")
  columns := 1
  table := [["0"], ["0"]]
  counted := rfl
  high := rfl
  wide := rfl
  filled _ := by decide

/-- A table of one domain, which is a row of one character. -/
def oneDomain : Section digit where
  name := "NUMA-L"
  count := "1"
  params := [("mult", "2")]
  shape := ("1", "1")
  columns := 1
  table := [["3"]]
  counted := rfl
  high := rfl
  wide := rfl
  filled _ := by decide

/-- An undirected graph on the first numbers, with the weights of its edges. -/
structure Graph where
  nodes : ℕ
  weight : ℕ → ℕ → Option ℤ

/-- The graph of a matrix. An entry of 0 is no edge, and of two entries for one edge the later one
counts. -/
def undirected (rows : List (List ℤ)) : Except Raised Graph :=
  if ∃ row ∈ rows, row.length ≠ (rows.headD []).length then .error .valueError
  else if rows = [] ∨ rows.length ≠ (rows.headD []).length then .error .networkXError
  else
    let entry := fun i j => (rows.getD i []).getD j 0
    .ok ⟨rows.length, fun i j =>
      [entry (max i j) (min i j), entry (min i j) (max i j)].find? (· ≠ 0)⟩

theorem parseMst_twoCpus :
    parseMst digit digit undirected (["LogGOP"] :: ([none, some twoCpus, none].flatMap linesOf ++
        (linesOf (some oneDomain)).take 3)) =
      (Machine.new "LogGOP").setTables digit undirected [twoCpus] :=
  parseMst_written digit undirected "LogGOP" [] [none, some twoCpus, none] (some oneDomain) 3
    (by decide)

/-! ## Which specifications are accepted -/

/-- The section is good in a machine with so many CPUs and domains. -/
def Section.Fine (cores domains : ℕ) (s : Section int) : Prop :=
  ∃ slot, names s.name = some slot ∧ Readable int float s.dict s.tab slot ∧
    s.tab.length = slot.size cores domains

/-- The last section for one of these slots. -/
def lastOf (among : Slot → Bool) (sections : List (Section int)) : Option (Section int) :=
  (sections.filter fun s => (names s.name).any among).getLast?

/-- Tables of the CPUs. -/
def Slot.ofCpus : Slot → Bool
  | .numa _ => false
  | _ => true

/-- Tables of the domains. -/
def Slot.ofDomains (slot : Slot) : Bool := !slot.ofCpus

/-- The machine that the sections describe: of each table the last one. -/
def machineOf (model : String) (sections : List (Section int)) : Machine α γ where
  model := model
  cpu2numa := (lastOf (· = .cpu2numa) sections).map fun s => s.tab.values int
  cpu table := (lastOf (· = .cpu table) sections).map fun s => s.tab.values (scaled float s.dict)
  numa table := (lastOf (· = .numa table) sections).bind fun s =>
    (fromMatrix (s.tab.matrix (scaled float s.dict))).toOption
  cores := (lastOf Slot.ofCpus sections).map fun s => s.tab.length
  domains := (lastOf Slot.ofDomains sections).map fun s => s.tab.length

theorem lastOf_concat (among : Slot → Bool) (sections : List (Section int)) {s : Section int}
    {slot : Slot} (named : names s.name = some slot) :
    lastOf among (sections ++ [s]) = if among slot then some s else lastOf among sections := by
  cases last : among slot <;> simp [lastOf, List.filter_append, named, last]

theorem update_lastOf {κ δ : Type} [DecidableEq κ] {table other : κ}
    {last : κ → Option (Section int)} {s : Section int} (value : Option (Section int) → δ) :
    Function.update (fun table => value (last table)) table (value (some s)) other =
      value (if table = other then some s else last other) := by
  by_cases this : other = table
  · subst this
    rw [Function.update_self, if_pos rfl]
  · rw [Function.update_of_ne this, if_neg (Ne.symm this)]

theorem machineOf_concat (model : String) (sections : List (Section int)) {s : Section int}
    {slot : Slot} (named : names s.name = some slot) :
    (machineOf float fromMatrix model sections).withTable int float fromMatrix s.dict s.tab slot =
      machineOf float fromMatrix model (sections ++ [s]) := by
  cases slot with
  | cpu2numa =>
    simp [machineOf, Machine.withTable, lastOf_concat _ sections named, Slot.ofCpus, Slot.ofDomains]
  | cpu table =>
    simp [machineOf, Machine.withTable, lastOf_concat _ sections named, Slot.ofCpus, Slot.ofDomains]
    exact funext fun other => update_lastOf (Option.map _)
  | numa table =>
    simp [machineOf, Machine.withTable, lastOf_concat _ sections named, Slot.ofCpus, Slot.ofDomains]
    exact funext fun other => update_lastOf (Option.bind · _)

/-- An accepted specification gives the machine that it describes. -/
theorem setTables_eq (takes : TakesSquares fromMatrix) {model : String}
    {sections : List (Section int)} {arch : Machine α γ}
    (accepted : (Machine.new model).setTables float fromMatrix sections = .ok arch) :
    arch = machineOf float fromMatrix model sections := by
  induction sections using List.reverseRecOn generalizing arch with
  | nil =>
    obtain rfl : Machine.new model = arch := Except.ok.inj accepted
    rfl
  | append_singleton sections s ih =>
    rw [Machine.setTables, foldlM_append_ok] at accepted
    obtain ⟨middle, first, last⟩ := accepted
    rw [foldlM_singleton, ih first, setTable_ok takes] at last
    obtain ⟨-, slot, named, -, -, rfl⟩ := last
    exact machineOf_concat float fromMatrix model sections named

/-- No other number of CPUs and no other number of domains is known. -/
def Machine.Agrees (arch : Machine α γ) (cores domains : ℕ) : Prop :=
  (∀ known ∈ arch.cores, known = cores) ∧ ∀ known ∈ arch.domains, known = domains

theorem agrees_withTable {arch : Machine α γ} {params : Params} {tab : Table} {slot : Slot}
    {cores domains : ℕ} :
    arch.Fits tab slot ∧
      (arch.withTable int float fromMatrix params tab slot).Agrees cores domains ↔
      arch.Agrees cores domains ∧ tab.length = slot.size cores domains := by
  cases slot with
  | cpu2numa =>
    simp only [Machine.Fits, Machine.withTable, Machine.Agrees, Slot.size,
      Option.mem_some_iff, forall_eq']
    constructor
    · rintro ⟨known, rfl, others⟩
      exact ⟨⟨known, others⟩, rfl⟩
    · rintro ⟨⟨known, others⟩, rfl⟩
      exact ⟨known, rfl, others⟩
  | cpu table =>
    simp only [Machine.Fits, Machine.withTable, Machine.Agrees, Slot.size,
      Option.mem_some_iff, forall_eq']
    constructor
    · rintro ⟨known, rfl, others⟩
      exact ⟨⟨known, others⟩, rfl⟩
    · rintro ⟨⟨known, others⟩, rfl⟩
      exact ⟨known, rfl, others⟩
  | numa table =>
    simp only [Machine.Fits, Machine.withTable, Machine.Agrees, Slot.size,
      Option.mem_some_iff, forall_eq']
    constructor
    · rintro ⟨known, others, rfl⟩
      exact ⟨⟨others, known⟩, rfl⟩
    · rintro ⟨⟨others, known⟩, rfl⟩
      exact ⟨known, others, rfl⟩

theorem model_withTable {arch : Machine α γ} {params : Params} {tab : Table} (slot : Slot) :
    (arch.withTable int float fromMatrix params tab slot).model = arch.model := by
  cases slot <;> rfl

/-- Sections are accepted if they are good in a machine with the numbers of CPUs and domains that
are known. -/
theorem exists_setTables (takes : TakesSquares fromMatrix) {sections : List (Section int)}
    {arch : Machine α γ} :
    (∃ arch', arch.setTables float fromMatrix sections = .ok arch') ↔
      (sections = [] ∨ arch.model = "LogGOP") ∧ ∃ cores domains, arch.Agrees cores domains ∧
        ∀ s ∈ sections, s.Fine float cores domains := by
  induction sections generalizing arch with
  | nil =>
    refine iff_of_true ⟨arch, rfl⟩ ⟨.inl rfl, arch.cores.getD 0, arch.domains.getD 0, ⟨?_, ?_⟩, ?_⟩
    · rintro known isKnown
      rw [Option.mem_def.mp isKnown, Option.getD_some]
    · rintro known isKnown
      rw [Option.mem_def.mp isKnown, Option.getD_some]
    · exact fun s member => absurd member List.not_mem_nil
  | cons s sections ih =>
    have first : (∃ arch', arch.setTables float fromMatrix (s :: sections) = .ok arch') ↔
        ∃ middle, arch.setTable int float fromMatrix s.name s.dict s.tab = .ok middle ∧
          ∃ arch', middle.setTables float fromMatrix sections = .ok arch' := by
      simp only [Machine.setTables, List.foldlM_cons, bind_ok]
      exact ⟨fun ⟨arch', middle, one, others⟩ => ⟨middle, one, arch', others⟩,
        fun ⟨middle, one, arch', others⟩ => ⟨arch', middle, one, others⟩⟩
    simp only [first, setTable_ok takes, ih, List.forall_mem_cons]
    constructor
    · rintro ⟨middle, ⟨model, slot, named, reads, fits, rfl⟩, -, cores, domains, agrees, fine⟩
      obtain ⟨agrees, size⟩ := (agrees_withTable float fromMatrix).mp ⟨fits, agrees⟩
      exact ⟨.inr model, cores, domains, agrees, ⟨slot, named, reads, size⟩, fine⟩
    · rintro ⟨model, cores, domains, agrees, ⟨slot, named, reads, size⟩, fine⟩
      obtain ⟨fits, agrees⟩ := (agrees_withTable float fromMatrix).mpr ⟨agrees, size⟩
      have model : arch.model = "LogGOP" := model.resolve_left (List.cons_ne_nil _ _)
      exact ⟨_, ⟨model, slot, named, reads, fits, rfl⟩,
        .inr ((model_withTable float fromMatrix slot).trans model), cores, domains, agrees, fine⟩

/-- A specification is accepted exactly if all its tables are known and readable, those of the CPUs
are of one length and those of the domains square and of one size; and the machine has of
each table the last one. -/
theorem parseMst_written_iff (takes : TakesSquares fromMatrix) (model : String) (more : Row)
    (pieces : List (Option (Section int)))
    (last : Option (Section int)) (k : ℕ) (short : k < (linesOf last).length) (arch : Machine α γ) :
    parseMst int float fromMatrix
      ((model :: more) :: (pieces.flatMap linesOf ++ (linesOf last).take k)) =
        .ok arch ↔
      (pieces.reduceOption = [] ∨ model = "LogGOP") ∧
        (∃ cores domains, ∀ s ∈ pieces.reduceOption, s.Fine float cores domains) ∧
        arch = machineOf float fromMatrix model pieces.reduceOption := by
  rw [parseMst_written float fromMatrix model more pieces last k short]
  constructor
  · intro accepted
    obtain ⟨known, cores, domains, -, fine⟩ :=
      (exists_setTables float fromMatrix takes).mp ⟨arch, accepted⟩
    exact ⟨known, ⟨cores, domains, fine⟩, setTables_eq float fromMatrix takes accepted⟩
  · rintro ⟨known, ⟨cores, domains, fine⟩, rfl⟩
    have fresh : (Machine.new model : Machine α γ).Agrees cores domains :=
      ⟨fun _ isKnown => absurd isKnown (Option.not_mem_none _),
        fun _ isKnown => absurd isKnown (Option.not_mem_none _)⟩
    obtain ⟨arch, accepted⟩ := (exists_setTables float fromMatrix takes).mpr
      ⟨known, cores, domains, fresh, fine⟩
    rw [← setTables_eq float fromMatrix takes accepted]
    exact accepted

theorem takesSquares_undirected : TakesSquares undirected := by
  intro rows
  rw [undirected, SquareRows]
  cases rows with
  | nil => simp
  | cons first rows =>
    split
    · next ragged =>
      refine iff_of_false (by simp) ?_
      rintro ⟨-, all⟩
      obtain ⟨row, member, other⟩ := ragged
      exact other ((all row member).trans (all first List.mem_cons_self).symm)
    · next even =>
      push Not at even
      split
      · next notSquare =>
        refine iff_of_false (by simp) ?_
        rintro ⟨-, all⟩
        exact notSquare.elim (List.cons_ne_nil _ _) fun other =>
          other (all first List.mem_cons_self).symm
      · next square =>
        push Not at square
        exact iff_of_true ⟨_, rfl⟩
          ⟨square.1, fun row member => (even row member).trans square.2.symm⟩

/-- Two domains. The entries for the edge between them differ. -/
def twoDomains : Section digit where
  name := "NUMA-g"
  count := "0"
  params := []
  shape := ("2", "2")
  columns := 2
  table := [["0", "1"], ["2", "0"]]
  counted := rfl
  high := rfl
  wide := rfl
  filled _ := by decide

theorem parseMst_twoDomains :
    parseMst digit digit undirected (["LogGOP"] ::
        ([some twoCpus, some twoDomains].flatMap linesOf ++
          (linesOf (none : Option (Section digit))).take 0)) =
      .ok (machineOf digit undirected "LogGOP" [twoCpus, twoDomains]) := by
  have cpus : twoCpus.Fine digit 2 2 := by
    refine ⟨.cpu2numa, rfl, ?_, rfl⟩
    simp [Readable, Section.tab, twoCpus, Table.Converts, digit]
  have domains : twoDomains.Fine digit 2 2 := by
    refine ⟨.numa .g, rfl, ⟨rfl, ?_⟩, rfl⟩
    decide
  refine (parseMst_written_iff digit undirected takesSquares_undirected "LogGOP" []
    [some twoCpus, some twoDomains] none 0 (by decide) _).mpr ⟨.inr rfl, ⟨2, 2, ?_⟩, rfl⟩
  intro s member
  obtain rfl | rfl : s = twoCpus ∨ s = twoDomains := by simpa using member
  · exact cpus
  · exact domains

/-- The machine has the later entry, in both directions. -/
example : ((machineOf digit undirected "LogGOP" [twoCpus, twoDomains]).numa .g).map
    (fun graph => (graph.weight 0 1, graph.weight 1 0)) = some (some 2, some 2) := by decide

end Written

/-! ## Whatever is accepted -/

/-- The tables of the CPUs have as many entries as there are CPUs, and the graphs of the domains
have as many nodes as there are domains, and are made of matrices with as many rows and columns. -/
structure Machine.Sound (fromMatrix : List (List α) → Except Raised γ) (nodes : γ → ℕ)
    (arch : Machine α γ) : Prop where
  cpu2numa : ∀ map ∈ arch.cpu2numa, arch.cores = some map.length
  cpu : ∀ table, ∀ times ∈ arch.cpu table, arch.cores = some times.length
  numa : ∀ table, ∀ graph ∈ arch.numa table, arch.domains = some (nodes graph) ∧ 0 < nodes graph ∧
    ∃ rows, fromMatrix rows = .ok graph ∧ rows.length = nodes graph ∧
      ∀ row ∈ rows, row.length = nodes graph

section Accepted

variable {int : String → Option ℤ} {float : String → Option α}
  {fromMatrix : List (List α) → Except Raised γ} {nodes : γ → ℕ}

theorem Table.Converts.length {number : String → Option β} {tab : Table}
    (converts : tab.Converts number) : (tab.values number).length = tab.length := by
  cases tab with
  | flat cells => exact List.filterMap_length_eq_length.mpr converts
  | nested rows =>
    obtain rfl : rows = [] := converts
    rfl

omit [Mul α] [One α] in
/-- A table of the CPUs may be stored next to others of its length. -/
theorem cores_of_fits {arch : Machine α γ} {tab : Table} {n : ℕ}
    (fits : ∀ known ∈ arch.cores, known = tab.length) (known : arch.cores = some n) :
    some tab.length = some n := by
  rw [fits n known]

theorem Machine.Sound.setTable (takes : TakesSquares fromMatrix)
    (perRow : NodePerRow fromMatrix nodes) {arch arch' : Machine α γ} {tabName : String}
    {params : Params} {tab : Table} (sound : arch.Sound fromMatrix nodes)
    (stored : arch.setTable int float fromMatrix tabName params tab = .ok arch') :
    arch'.Sound fromMatrix nodes := by
  obtain ⟨-, slot, -, reads, fits, rfl⟩ := (setTable_ok takes).mp stored
  cases slot with
  | cpu2numa =>
    refine ⟨?_, fun table times member => ?_, sound.numa⟩
    · rintro map ⟨⟩
      exact congrArg some reads.length.symm
    · exact cores_of_fits fits (sound.cpu table times member)
  | cpu table =>
    obtain ⟨hasFactor, converts⟩ := reads
    obtain ⟨mult, isFactor⟩ := Option.isSome_iff_exists.mp hasFactor
    refine ⟨fun map member => cores_of_fits fits (sound.cpu2numa map member), ?_, sound.numa⟩
    intro other times member
    by_cases same : other = table
    · subst same
      have member : some (tab.values (scaled float params)) = some times := by
        simpa [Machine.withTable] using member
      cases member
      exact congrArg some ((converts_scaled isFactor).mpr converts).length.symm
    · have member : times ∈ arch.cpu other := by
        simpa [Machine.withTable, same] using member
      exact cores_of_fits fits (sound.cpu other times member)
  | numa table =>
    refine ⟨sound.cpu2numa, sound.cpu, fun other graph member => ?_⟩
    by_cases same : other = table
    · subst same
      obtain ⟨hasFactor, isSquare⟩ := reads
      obtain ⟨mult, isFactor⟩ := Option.isSome_iff_exists.mp hasFactor
      -- the attribute is the graph of the rows, which are those of a square matrix
      have made : fromMatrix (tab.matrix (scaled float params)) = .ok graph := by
        have member : (fromMatrix (tab.matrix (scaled float params))).toOption = some graph := by
          simpa [Machine.withTable] using member
        cases result : fromMatrix (tab.matrix (scaled float params)) with
        | error raised => rw [result] at member; cases member
        | ok graph' => rw [result] at member; cases member; rfl
      obtain ⟨nonempty, square⟩ := (takes _).mp ⟨graph, made⟩
      have height : nodes graph = tab.length := by
        rw [perRow _ _ made, Table.matrix, List.length_map, tab.length_rows]
      refine ⟨congrArg some height.symm, ?_, _, made, (perRow _ _ made).symm, ?_⟩
      · rw [perRow _ _ made]
        exact List.length_pos_iff.mpr nonempty
      · rw [perRow _ _ made]
        exact square
    · have member : graph ∈ arch.numa other := by
        simpa [Machine.withTable, same] using member
      obtain ⟨known, others⟩ := sound.numa other graph member
      exact ⟨(congrArg some (fits _ known).symm : some tab.length = some (nodes graph)), others⟩

theorem readSection_gives (takes : TakesSquares fromMatrix) (perRow : NodePerRow fromMatrix nodes)
    {arch : Machine α γ} (sound : arch.Sound fromMatrix nodes) :
    Gives (Machine.Sound fromMatrix nodes) (readSection int float fromMatrix arch) := by
  refine Gives.bind fun tabHeader => ?_
  by_cases blank : tabHeader = []
  · rw [if_pos blank]
    exact Gives.pure sound
  · rw [if_neg blank]
    refine Gives.bind fun header => Gives.bind fun params => Gives.bind fun tab => ?_
    exact Gives.lift fun arch' stored => sound.setTable takes perRow stored

/-- Whatever lines are accepted, the tables of the machine are of matching sizes. -/
theorem sound_of_parseMst (takes : TakesSquares fromMatrix) (perRow : NodePerRow fromMatrix nodes)
    {rows : List Row} {arch : Machine α γ}
    (accepted : parseMst int float fromMatrix rows = .ok arch) : arch.Sound fromMatrix nodes := by
  match rows with
  | [] => cases accepted
  | [] :: _ => cases accepted
  | (model :: _) :: rows =>
    have fresh : (Machine.new model : Machine α γ).Sound fromMatrix nodes :=
      ⟨fun _ isKnown => absurd isKnown (Option.not_mem_none _),
        fun _ _ isKnown => absurd isKnown (Option.not_mem_none _),
        fun _ _ isKnown => absurd isKnown (Option.not_mem_none _)⟩
    exact untilOut_invariant (fun sound read => readSection_gives takes perRow sound _ _ _ read)
      fresh
      accepted

def oneDomainFile : List Row :=
  [["LogGOP"], ["CPU-to-NUMA", "0"], ["2", "1"], ["0"], ["0"], [], ["NUMA-L", "0"],
    ["1", "1"], ["3"]]

theorem nodePerRow_undirected : NodePerRow undirected Graph.nodes := by
  intro rows graph made
  rw [undirected] at made
  split at made
  · cases made
  · split at made
    · cases made
    · cases made
      rfl

theorem sound_oneDomain : ∃ arch, parseMst digit digit undirected oneDomainFile = .ok arch ∧
    arch.Sound undirected Graph.nodes := by
  obtain ⟨arch, accepted⟩ : ∃ arch, parseMst digit digit undirected oneDomainFile = .ok arch :=
    ⟨_, rfl⟩
  exact ⟨arch, accepted, sound_of_parseMst takesSquares_undirected nodePerRow_undirected accepted⟩

theorem mstReadTable_takes : Takes 0 (mstReadTable int) := by
  refine (Takes.next _).zero.seq fun row => (Takes.lift _).seq fun shape => ?_
  by_cases column : shape.2 = 1
  · rw [if_pos column]
    exact (Takes.times _ _).seq fun cells => Takes.pure _
  · rw [if_neg column]
    by_cases single : shape.1 = 1
    · rw [if_pos single]
      exact (Takes.next _).zero.seq fun row => Takes.pure _
    · rw [if_neg single]
      exact (Takes.times _ _).seq fun res => Takes.pure _

theorem readSection_takes (arch : Machine α γ) :
    Takes 1 (readSection int float fromMatrix arch) := by
  refine (Takes.next Fault.stopIteration).bind (n := 0) fun tabHeader => ?_
  by_cases blank : tabHeader = []
  · rw [if_pos blank]
    exact Takes.pure arch
  · rw [if_neg blank]
    exact (Takes.lift _).seq fun header => (Takes.times _ _).seq fun params =>
      mstReadTable_takes.seq fun tab => Takes.lift _

/-- The loop ends because the lines run out, not because the rounds do. -/
theorem parseMst_rounds (model : String) (more : Row) (rows : List Row) {rounds : ℕ}
    (enough : rows.length < rounds) :
    parseMst int float fromMatrix ((model :: more) :: rows) =
      untilOut .stopIteration (readSection int float fromMatrix) rounds (Machine.new model) rows :=
  untilOut_rounds readSection_takes (Nat.lt_succ_self _) enough

end Accepted

end Tthread.Racksim.MachineFile
