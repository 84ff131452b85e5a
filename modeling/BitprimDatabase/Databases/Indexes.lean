/-
  File:      BitprimDatabase/Databases/Indexes.lean
  Subject:   THE OPTIONAL INDEXES (spend_database.cpp, history_database.cpp,
             stealth_database.cpp) AND THE POOL (transaction_unconfirmed_database.cpp).

  Spends and pool entries are stacks under a key: a store pushes, the guarded unlink pops. History
  rows are the rows of a multimap. Stealth rows are appended and never removed.
-/
import BitprimDatabase.Primitives.RecordMultimap
import BitprimDatabase.Databases.TransactionDatabase

namespace Libbitcoin.Database

open Lib

variable [Core]

/-! ## 1. Spends -/

/-- From an output point to the input point that spends it. -/
structure SpendDatabase where
  lookup : Table Point Point

namespace SpendDatabase

def create (buckets : Nat) : SpendDatabase := ⟨Table.create Core.hashPoint buckets 0⟩

/-- The default input point where there is none. -/
def get (db : SpendDatabase) (outpoint : Point) : Point :=
  (db.lookup.get outpoint).getD ⟨nullHash, 0⟩

def store (db : SpendDatabase) (outpoint spend : Point) : SpendDatabase :=
  ⟨db.lookup.store outpoint spend 1 Nat.one_pos⟩

def unlink (db : SpendDatabase) (outpoint : Point) : SpendDatabase × Bool :=
  (⟨(db.lookup.unlinkIfFound outpoint).1⟩, (db.lookup.unlinkIfFound outpoint).2)

/-- The spends of an output point, newest first. -/
def spends (db : SpendDatabase) : Stacks Point Point := db.lookup.stack

omit [Core] in
theorem get_eq (db : SpendDatabase) (outpoint : Point) :
    db.get outpoint = (db.spends outpoint).head?.getD ⟨nullHash, 0⟩ := by
  rw [get, Table.get_eq]
  rfl

@[simp] theorem create_spends (buckets : Nat) (outpoint : Point) :
    (create buckets).spends outpoint = [] := Table.create_stack ..

omit [Core] in
@[simp] theorem store_spends (db : SpendDatabase) (outpoint spend : Point) :
    (db.store outpoint spend).spends = db.spends.push outpoint spend :=
  Table.store_stack _ _ _ _ Nat.one_pos

omit [Core] in
@[simp] theorem unlink_spends (db : SpendDatabase) (outpoint : Point) :
    (db.unlink outpoint).1.spends = db.spends.pop outpoint := Table.unlinkIfFound_stack ..

end SpendDatabase

/-! ## 2. History -/

inductive PointKind where
  | output
  | spend
  deriving DecidableEq

/-- A history row: the value of an output, the checksum of the output an input spends. -/
structure HistoryRow where
  kind : PointKind
  point : Point
  height : Nat
  valueOrChecksum : Nat
  deriving DecidableEq

/-- Rows by address. -/
structure HistoryDatabase where
  rowsMultimap : RecordMultimap ShortHash HistoryRow

namespace HistoryDatabase

def create (buckets : Nat) : HistoryDatabase := ⟨RecordMultimap.create Core.hashShort buckets⟩

/-- The row `add_output` writes. -/
def outputRow (outpoint : Point) (outputHeight value : Nat) : HistoryRow :=
  ⟨.output, outpoint, u32 outputHeight, value⟩

/-- The row `add_input` writes. -/
def inputRow (inpoint : Point) (inputHeight : Nat) (previous : Point) : HistoryRow :=
  ⟨.spend, inpoint, u32 inputHeight, Core.checksum previous⟩

def addOutput (db : HistoryDatabase) (key : ShortHash) (outpoint : Point)
    (outputHeight value : Nat) : HistoryDatabase :=
  ⟨db.rowsMultimap.addRow key (outputRow outpoint outputHeight value)⟩

def addInput (db : HistoryDatabase) (key : ShortHash) (inpoint : Point) (inputHeight : Nat)
    (previous : Point) : HistoryDatabase :=
  ⟨db.rowsMultimap.addRow key (inputRow inpoint inputHeight previous)⟩

def deleteLastRow (db : HistoryDatabase) (key : ShortHash) : HistoryDatabase × Bool :=
  (⟨(db.rowsMultimap.deleteLastRow key).1⟩, (db.rowsMultimap.deleteLastRow key).2)

/-- The loop of `get` over the rows from the key's first one. -/
def select (limit fromHeight : Nat) : List HistoryRow → List HistoryRow → List HistoryRow
  | [], result => result
  | row :: rows, result =>
    if limit > 0 && decide (result.length ≥ limit) then result
    else if fromHeight == 0 || decide (row.height ≥ fromHeight) then
      select limit fromHeight rows (result ++ [row])
    else select limit fromHeight rows result

def get (db : HistoryDatabase) (key : ShortHash) (limit fromHeight : Nat) : List HistoryRow :=
  select limit fromHeight (db.rowsMultimap.rows key) []

/-- The rows of an address, newest first. -/
def rows (db : HistoryDatabase) : Stacks ShortHash HistoryRow := db.rowsMultimap.rows

omit [Core] in
theorem select_all (rows result : List HistoryRow) : select 0 0 rows result = result ++ rows := by
  induction rows generalizing result with
  | nil => simp [select]
  | cons row rows ih => simp [select, ih]

omit [Core] in
/-- Without a limit and from height 0 the history is every row. -/
theorem get_all (db : HistoryDatabase) (key : ShortHash) : db.get key 0 0 = db.rows key :=
  select_all ..

@[simp] theorem create_rows (buckets : Nat) (key : ShortHash) :
    (create buckets).rows key = [] := RecordMultimap.create_rows ..

omit [Core] in
@[simp] theorem addOutput_rows (db : HistoryDatabase) (key : ShortHash) (outpoint : Point)
    (outputHeight value : Nat) : (db.addOutput key outpoint outputHeight value).rows =
      db.rows.push key (outputRow outpoint outputHeight value) := RecordMultimap.addRow_rows ..

@[simp] theorem addInput_rows (db : HistoryDatabase) (key : ShortHash) (inpoint : Point)
    (inputHeight : Nat) (previous : Point) : (db.addInput key inpoint inputHeight previous).rows =
      db.rows.push key (inputRow inpoint inputHeight previous) := RecordMultimap.addRow_rows ..

omit [Core] in
@[simp] theorem deleteLastRow_rows (db : HistoryDatabase) (key : ShortHash) :
    (db.deleteLastRow key).1.rows = db.rows.pop key := RecordMultimap.deleteLastRow_rows ..

end HistoryDatabase

/-! ## 3. Stealth -/

structure StealthCompact where
  ephemeralPublicKeyHash : HashDigest
  publicKeyHash : ShortHash
  transactionHash : HashDigest
  deriving DecidableEq

/-- Rows of prefix, height and stealth data, in the order of their storing. -/
structure StealthDatabase where
  rows : List (Nat × Nat × StealthCompact)

namespace StealthDatabase

def create : StealthDatabase := ⟨[]⟩

def store (db : StealthDatabase) (stealthPrefix height : Nat) (row : StealthCompact) :
    StealthDatabase :=
  ⟨db.rows ++ [(stealthPrefix, u32 height, row)]⟩

/-- The rows from a height on whose prefix the filter is a prefix of, in order. -/
def scan (db : StealthDatabase) (isPrefixOf : Nat → Bool) (fromHeight : Nat) :
    List StealthCompact :=
  (db.rows.filter fun row => isPrefixOf row.1 && decide (fromHeight ≤ row.2.1)).map fun row => row.2.2

end StealthDatabase

/-! ## 4. The pool -/

/-- Unconfirmed transactions by hash. -/
structure TransactionUnconfirmedDatabase where
  lookup : Table HashDigest TransactionSlab

namespace TransactionUnconfirmedDatabase

def create (buckets : Nat) : TransactionUnconfirmedDatabase :=
  ⟨Table.create Core.hashDigest buckets 8⟩

def get (db : TransactionUnconfirmedDatabase) (hash : HashDigest) : Option TransactionSlab :=
  db.lookup.get hash

def store (db : TransactionUnconfirmedDatabase) (tx : Transaction) :
    TransactionUnconfirmedDatabase :=
  ⟨db.lookup.store tx.hash (tx.toSlab 0 unconfirmed) (slabExtent tx) (slabExtent_pos tx)⟩

def unlinkIfExists (db : TransactionUnconfirmedDatabase) (hash : HashDigest) :
    TransactionUnconfirmedDatabase × Bool :=
  (⟨(db.lookup.unlinkIfFound hash).1⟩, (db.lookup.unlinkIfFound hash).2)

/-- The entries of a hash, newest first. -/
def entries (db : TransactionUnconfirmedDatabase) : Stacks HashDigest TransactionSlab :=
  db.lookup.stack

omit [Core] in
theorem get_eq (db : TransactionUnconfirmedDatabase) (hash : HashDigest) :
    db.get hash = (db.entries hash).head? := Table.get_eq ..

@[simp] theorem create_entries (buckets : Nat) (hash : HashDigest) :
    (create buckets).entries hash = [] := Table.create_stack ..

@[simp] theorem store_entries (db : TransactionUnconfirmedDatabase) (tx : Transaction) :
    (db.store tx).entries = db.entries.push tx.hash (tx.toSlab 0 unconfirmed) :=
  Table.store_stack _ _ _ _ (slabExtent_pos tx)

omit [Core] in
@[simp] theorem unlinkIfExists_entries (db : TransactionUnconfirmedDatabase) (hash : HashDigest) :
    (db.unlinkIfExists hash).1.entries = db.entries.pop hash := Table.unlinkIfFound_stack ..

end TransactionUnconfirmedDatabase

end Libbitcoin.Database
