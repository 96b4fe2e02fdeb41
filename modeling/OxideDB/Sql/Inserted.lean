import OxideDB.Sql.Executor
import OxideDB.Transition

/-!
# What becomes of an inserted row

`INSERT` files a row under the lower-case name of its table, as one packed value, and says
"inserted" whatever the shard made of the proposal.  `SELECT *` looks under the name as the
parser left it, in upper case, and takes what it finds for a text.  A packed row of one column is
no text, and a row of more columns does not fit the one-column row made of it: whichever table,
placement or answers, the row does not come back.
-/

namespace OxideDB.Sql

open List Transition
open Raft (Bytes)
open Storage (ValidKey MVCCStateMachine)
open Storage.MVCCStateMachine (History ScanFailure replay)

variable (f : Format)

/-! ## The statements -/

structure InsertStatement where
  table : Bytes
  columns : List Bytes
  values : List Value
  deriving DecidableEq

variable {stmt : InsertStatement}

/-- How `_parse_insert` reads one of the values. -/
def literal (v : Bytes) : Value :=
  if (v.head? = some 39 ∧ v.getLast? = some 39) ∨ (v.head? = some 34 ∧ v.getLast? = some 34) then
    .str (v.drop 1).dropLast
  else if v ≠ [] ∧ v.all (fun b => 48 ≤ b ∧ b ≤ 57) then
    .int (v.foldl (fun n b => 10 * n + (b.toNat - 48)) 0)
  else if f.lower v = [110, 117, 108, 108] then .null
  else .str v

/-- `parse`, of the table, the columns and the values that the statement's pattern takes apart:
the statement is put in upper case first. -/
def parseInsert (table : Bytes) (columns values : List Bytes) : InsertStatement :=
  ⟨f.upper table, columns.map f.upper, values.map fun v => literal f (f.upper v)⟩

namespace InsertStatement

/-- The row as a dict, under the lower-case names of its columns. -/
def row (stmt : InsertStatement) : Row :=
  .ofList ((stmt.columns.map f.lower).zip stmt.values)

/-- `_execute_insert`: the key and the value it proposes when it answers "inserted". -/
def execute (stmt : InsertStatement) (c : Cluster) : Option (Bytes × Bytes) :=
  match stmt.columns, stmt.values with
  | _ :: _, id :: _ =>
    let key := f.lower stmt.table ++ [colon] ++ f.str id
    if (c.leaderForKey key).isSome then some (key, f.packb (stmt.row f)) else none
  | _, _ => none

end InsertStatement

/-- `_execute_full_scan`. -/
def executeFullScan (c : Cluster) (table : Bytes) : Except ScanFailure (List Row) := do
  let rows ← c.rowsFromEveryShard [] [255]
  let under := fun row : Bytes × Bytes => (table ++ [colon]).isPrefixOf row.1
  if rows.all (fun row => f.decodes row.1 && (!under row || f.decodes row.2)) then
    return (rows.filter under).map fun row => .ofList [(columnValue row.1, .str row.2)]
  else throw undecodable

/-! ## Runs -/

/-- A cluster, and the `INSERT`s it has answered with "inserted". -/
structure World where
  cluster : Cluster
  inserted : List InsertStatement

inductive Event where
  /-- An `INSERT`, and the cluster once the proposal is over. -/
  | insert (stmt : InsertStatement) (after : Cluster)
  /-- Splits, moves and elections. -/
  | change (after : Cluster)

namespace World

def step (w : World) : Event → Option World
  | .insert stmt after =>
    some ⟨after, w.inserted ++ if (stmt.execute f w.cluster).isSome then [stmt] else []⟩
  | .change after => some ⟨after, w.inserted⟩

/-- Wherever rows are put and however often they are copied, they are rows that were there or the
one that is proposed. -/
def Grounded (w : World) : Event → Prop
  | .insert stmt after => ∀ row, after.Holds row →
      w.cluster.Holds row ∨ stmt.execute f w.cluster = some row
  | .change after => ∀ row, after.Holds row → w.cluster.Holds row

end World

/-! ## Reading them back -/

variable {f} {c : Cluster}

section

variable {lo hi : Bytes} {rows : List (Bytes × Bytes)} {row : Bytes × Bytes} (hlo : ValidKey lo)
  (hhi : ValidKey hi)
include hlo hhi

/-- A range read has nothing but what its leader reads. -/
theorem scan_mem {log : History} (h : (replay log).scan lo hi none = .ok rows) (hrow : row ∈ rows) :
    ∃ t, (replay log).get row.1 none = .ok (.ok (some row.2) t) := by
  have hm := MVCCStateMachine.tidy_replay log
  obtain ⟨rows', hrows', hmap⟩ := bind_ok h
  cases hmap
  obtain ⟨⟨k, v, t⟩, hin, rfl⟩ := mem_map.1 hrow
  by_cases hno : ∃ k, lo ≤ k ∧ k < hi ∧ (replay log).get k none = .ok .locked
  · obtain ⟨k, hge, hlt, hlocked⟩ := hno
    obtain ⟨msg, key, hrefused⟩ :=
      MVCCStateMachine.scanVersions_refused hm (lastApplied_ge log) hlo hhi ⟨hge, hlt⟩ hlocked
    cases hrefused.symm.trans hrows'
  · obtain ⟨rows'', hrows'', -, hmem⟩ :=
      MVCCStateMachine.scanVersions_pointwise hm (lastApplied_ge log) hlo hhi hno
    cases hrows'.symm.trans hrows''
    exact ⟨t, ((hmem k v t).1 hin).2.2⟩

theorem rowsFromEveryShard_mem (h : c.rowsFromEveryShard lo hi = .ok rows) (hrow : row ∈ rows) :
    c.Holds row := by
  suffices hloop : ∀ rs ⊆ c.replicas, ∀ acc, (∀ row ∈ acc, c.Holds row) →
      rs.foldlM (Cluster.extend lo hi) acc = .ok rows → ∀ row ∈ rows, c.Holds row from
    hloop c.replicas (List.Subset.refl _) [] (by simp) h row hrow
  intro rs
  induction rs with
  | nil => exact fun _ acc hacc heq => by cases heq; exact hacc
  | cons r rs ih =>
    intro hrs acc hacc heq
    obtain ⟨hr, hrs⟩ := cons_subset.1 hrs
    obtain ⟨acc', hext, heq⟩ := bind_ok heq
    refine ih hrs acc' (fun row hin => ?_) heq
    unfold Cluster.extend at hext
    split at hext
    · cases hext; exact hacc row hin
    · rename_i more hscan
      cases hext
      rcases mem_append.1 hin with hin | hin
      · exact hacc row hin
      cases r with
      | leads log => exact ⟨log, hr, scan_mem hlo hhi (Option.some.inj hscan) hin⟩
      | missing => cases hscan
      | refuses code => cases hscan
    · cases hext; exact hacc row hin
    · cases hext

end

/-- **What `SELECT *` returns** are rows of one column, made of texts the leaders hold. -/
theorem executeFullScan_mem {table : Bytes} {rows : List Row}
    (h : executeFullScan f c table = .ok rows) {r : Row} (hr : r ∈ rows) :
    ∃ row, c.Holds row ∧ f.decodes row.2 = true ∧ r.entries = [(columnValue row.1, .str row.2)] := by
  obtain ⟨stored, hstored, h⟩ := bind_ok h
  dsimp only at h
  split at h
  · rename_i hall
    cases h
    obtain ⟨row, hin, rfl⟩ := mem_map.1 hr
    obtain ⟨hin, hunder⟩ := mem_filter.1 hin
    have htext := all_eq_true.1 hall row hin
    simp only [hunder, Bool.not_true, Bool.false_or, Bool.and_eq_true] at htext
    refine ⟨row, rowsFromEveryShard_mem (by decide) (by decide) hstored hin, htext.2, ?_⟩
    exact Dict.entries_ofList (by simp)
  · cases h

/-- A packed row of one column begins with `0x81`, and no text does. -/
def Format.PacksApart (f : Format) : Prop :=
  ∀ row : Row, row.entries.length = 1 → f.decodes (f.packb row) = false

theorem InsertStatement.execute_value {row : Bytes × Bytes} (h : stmt.execute f c = some row) :
    row.2 = f.packb (stmt.row f) := by
  unfold execute at h
  split at h
  · dsimp only at h
    split at h
    · cases h; rfl
    · cases h
  · cases h

/-- Where the leaders hold nothing but one row, `SELECT *` does not return it. -/
theorem not_selected (hf : f.PacksApart) (hc : ∀ row, c.Holds row → row.2 = f.packb (stmt.row f))
    (table : Bytes) (rows : List Row) (h : executeFullScan f c table = .ok rows) :
    stmt.row f ∉ rows := by
  intro hmem
  obtain ⟨row, hold, htext, hentries⟩ := executeFullScan_mem h hmem
  have hpacked := hf (stmt.row f) (by rw [hentries]; rfl)
  rw [hc row hold, hpacked] at htext
  cases htext

/-- **An inserted row is not selected.**  In every run that begins with no rows and answers some
`INSERT` with "inserted", right after the first such answer `SELECT *` of the table, if it returns
at all, does not return the row. -/
theorem inserted_never_selected (f : Format) (hf : f.PacksApart) (es : List Event) (w₀ w : World)
    (hempty : ∀ row, ¬ w₀.cluster.Holds row) (hnone : w₀.inserted = [])
    (hes : Transition.Along (World.step f) (World.Grounded f) w₀ es)
    (hr : Transition.run (World.step f) w₀ es = some w) (hsome : w.inserted ≠ []) :
    ∃ es₁ es₂ w₁ stmt, es = es₁ ++ es₂ ∧ Transition.run (World.step f) w₀ es₁ = some w₁ ∧
      w₁.inserted = [stmt] ∧
      ∀ rows, executeFullScan f w₁.cluster stmt.table = .ok rows → stmt.row f ∉ rows := by
  induction es generalizing w₀ with
  | nil =>
    cases hr
    exact absurd hnone hsome
  | cons e es ih =>
    obtain ⟨w₁, hs, hr⟩ := run_cons hr
    obtain ⟨hground, hes⟩ := hes.cons hs
    cases e with
    | change after =>
      cases hs
      obtain ⟨es₁, es₂, w', stmt, rfl, hrun, hrest⟩ :=
        ih ⟨after, w₀.inserted⟩ (fun row hrow => hempty row (hground row hrow)) hnone hes hr
      exact ⟨.change after :: es₁, es₂, w', stmt, rfl, hrun, hrest⟩
    | insert stmt after =>
      have hrow : ∀ row, after.Holds row → stmt.execute f w₀.cluster = some row :=
        fun row hrow => (hground row hrow).resolve_left (hempty row)
      cases hexec : stmt.execute f w₀.cluster with
      | none =>
        have hstep : w₀.step f (.insert stmt after) = some ⟨after, []⟩ := by
          simp [World.step, hexec, hnone]
        cases hs.symm.trans hstep
        obtain ⟨es₁, es₂, w', stmt', rfl, hrun, hrest⟩ :=
          ih _ (fun row hold => by cases hexec.symm.trans (hrow row hold)) rfl hes hr
        refine ⟨.insert stmt after :: es₁, es₂, w', stmt', rfl, ?_, hrest⟩
        rw [run, hstep]
        exact hrun
      | some proposed =>
        have hstep : w₀.step f (.insert stmt after) = some ⟨after, [stmt]⟩ := by
          simp [World.step, hexec, hnone]
        refine ⟨[.insert stmt after], es, ⟨after, [stmt]⟩, stmt, rfl, ?_, rfl, ?_⟩
        · rw [run, hstep]
          rfl
        · exact not_selected hf (fun row hold => stmt.execute_value (hrow row hold)) _

/-! ## A run -/

/-- `INSERT INTO t (id, v) VALUES (1, 'a')`. -/
def insertOne : InsertStatement := parseInsert ascii [116] [[105, 100], [118]] [[49], [39, 97, 39]]

/-- The leader has applied the `SET` of it. -/
def oneLog : History := [(0, set [116, 58, 49] (ascii.packb (insertOne.row ascii)) 1)]

theorem execute_insertOne : insertOne.execute ascii (single []) =
    some ([116, 58, 49], ascii.packb (insertOne.row ascii)) := by
  decide +kernel

/-- The row is there, a `SELECT` by its id reads it, and `SELECT *` returns nothing. -/
theorem insert_not_selected :
    (insertOne.execute ascii (single [])).isSome ∧
    selectRows ascii (single oneLog) insertOne.table [49] .eq =
      .ok [([116, 58, 49], ascii.packb (insertOne.row ascii))] ∧
    executeFullScan ascii (single oneLog) insertOne.table = .ok [] := by
  decide +kernel

theorem ascii_packsApart : ascii.PacksApart := by
  intro row hone
  simp [ascii, hone]

theorem inserted_never_selected_one : ∃ es₁ w₁,
    Transition.run (World.step ascii) ⟨single [], []⟩ es₁ = some w₁ ∧ ∃ stmt ∈ w₁.inserted,
      ∀ rows, executeFullScan ascii w₁.cluster stmt.table = .ok rows → stmt.row ascii ∉ rows := by
  have hempty : ∀ row, ¬ (single []).Holds row := fun row hrow => by
    obtain ⟨e, he, -⟩ := hrow.named.1
    cases he
  have hground : World.Grounded ascii ⟨single [], []⟩ (.insert insertOne (single oneLog)) := by
    rintro ⟨k, v⟩ hrow
    obtain ⟨⟨e, he, hkey⟩, t, hget⟩ := hrow.named
    cases mem_singleton.1 he
    cases hkey
    have hone : (replay oneLog).get [116, 58, 49] none =
        .ok (.ok (some (ascii.packb (insertOne.row ascii))) 1) := by decide +kernel
    cases hone.symm.trans hget
    exact .inr execute_insertOne
  have hrun : run (World.step ascii) ⟨single [], []⟩
      [.insert insertOne (single oneLog)] = some ⟨single oneLog, [insertOne]⟩ := by
    simp [run, World.step, execute_insertOne]
  obtain ⟨es₁, _, w₁, stmt, -, hrun₁, hins, hno⟩ := inserted_never_selected ascii ascii_packsApart
    [.insert insertOne (single oneLog)] ⟨single [], []⟩ ⟨single oneLog, [insertOne]⟩ hempty rfl
    ⟨hground, trivial⟩ hrun (cons_ne_nil _ _)
  exact ⟨es₁, w₁, hrun₁, stmt, by rw [hins]; exact mem_cons_self, hno⟩

end OxideDB.Sql
