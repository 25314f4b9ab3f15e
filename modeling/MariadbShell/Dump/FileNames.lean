import Mathlib

/-!
# The names of the files of a dump

The names of the scripts, of the metadata and of the data of the objects of a dump.
Names are lists of code points: the encoding replaces ASCII characters only, and the
length of a name is counted in code points.
-/

namespace MariadbShell.Dump

abbrev Name := List Char

instance : LawfulBEq Name :=
  inferInstance

/-! ## Encoded names -/

/-- `k_reserved_chars`. -/
def isReserved (chr : Char) : Bool :=
  chr.toNat < 128 ∧ ¬ (chr.isAlphanum ∨ chr ∈ ['-', '.', '_', '~'])

/-- A digit of the format `%02X`. -/
def hexDigit (digit : Nat) : Char :=
  (Nat.digitChar digit).toUpper

def hexencodeChar (chr : Char) : Name :=
  if isReserved chr then ['%', hexDigit (chr.toNat / 16), hexDigit (chr.toNat % 16)] else [chr]

def hexencode (name : Name) : Name :=
  name.flatMap hexencodeChar

/-- `k_separator`. -/
def separator : Char := '@'

def encodeSchemaBasename (schema : Name) : Name :=
  hexencode schema

def encodeTableBasename (schema table : Name) : Name :=
  encodeSchemaBasename schema ++ separator :: hexencode table

def encodePartitionBasename (schema table part : Name) : Name :=
  encodeTableBasename schema table ++ separator :: hexencode part

/-! ## Names of files -/

/-- `get_schema_filename` and `get_table_filename` without an extension. -/
def getSchemaFilename (basename : Name) : Name :=
  basename ++ ".sql".toList

def getTableFilename (basename : Name) : Name :=
  basename ++ ".sql".toList

/-- `get_schema_filename` and `get_table_data_filename` with an extension. -/
def getSchemaFilenameWith (basename ext : Name) : Name :=
  basename ++ '.' :: ext

def getTableDataFilename (basename ext : Name) : Name :=
  basename ++ '.' :: ext

/-- The number of a chunk, marked if it is the last one. -/
def chunkMark (index : Nat) (lastChunk : Bool) : Name :=
  separator :: (if lastChunk then [separator] else []) ++ Nat.toDigits 10 index

/-- `get_table_data_filename` of a chunk. -/
def getTableChunkFilename (basename ext : Name) (index : Nat) (lastChunk : Bool) : Name :=
  basename ++ chunkMark index lastChunk ++ '.' :: ext

/-! ## Base names -/

/-- `k_max_basename_length`. -/
def maxBasenameLength : Nat := 225

/-- `Basenames`: how often a name was truncated. -/
structure Basenames where
  maxLength : Nat
  truncated : Name → Nat := fun _ => 0

def Basenames.get (basenames : Basenames) (name : Name) : Name × Basenames :=
  if name.length ≤ basenames.maxLength then (name, basenames)
  else
    let cut := name.take basenames.maxLength
    let ordinal := basenames.truncated cut
    (cut ++ Nat.toDigits 10 ordinal,
      { basenames with
        truncated := fun other => if other = cut then ordinal + 1 else basenames.truncated other })

/-! ## Objects -/

inductive DataFormat where
  | tsv
  | csv
  | txt
deriving DecidableEq, Repr

inductive Compression where
  | none
  | gzip
  | zstd
deriving DecidableEq, Repr

def dataFileExtension (format : DataFormat) (compression : Compression) : Name :=
  (match format with
    | .tsv => "tsv".toList
    | .csv => "csv".toList
    | .txt => "txt".toList) ++
  match compression with
    | .none => []
    | .gzip => ".gz".toList
    | .zstd => ".zst".toList

/-- The chunks of a table, or `none` if its data is not chunked. -/
structure DataFiles where
  format : DataFormat
  compression : Compression
  indexFiles : Bool
  chunks : Option (List (Nat × Bool))
  distinct : ∀ numbers, chunks = some numbers → numbers.Nodup

def DataFiles.dataNames (data : DataFiles) (basename : Name) : List Name :=
  let ext := dataFileExtension data.format data.compression
  match data.chunks with
  | none => [getTableDataFilename basename ext]
  | some numbers =>
    numbers.map fun number => getTableChunkFilename basename ext number.1 number.2

def DataFiles.names (data : DataFiles) (basename : Name) : List Name :=
  data.dataNames basename ++
    if data.indexFiles then (data.dataNames basename).map (· ++ ".idx".toList) else []

/-- A table; `none` stands for data that is not dumped. -/
structure TableInfo where
  name : Name
  hasTriggers : Bool
  data : Option DataFiles
  partitions : List (Name × Option DataFiles)

structure SchemaInfo where
  name : Name
  tables : List TableInfo
  views : List Name

structure FileOptions where
  ddl : Bool
  metadata : Bool
  triggers : Bool
  multifile : Bool
  events : Bool
  libraries : Bool
  routines : Bool
deriving DecidableEq, Repr

inductive Entry where
  | schema (name : Name)
  | table (schema name : Name) (hasTriggers : Bool) (data : Option DataFiles)
  | part (schema table name : Name) (data : Option DataFiles)
  | view (schema name : Name)

namespace Entry

/-- The name that `get_basename` is called with. -/
def encoded : Entry → Name
  | .schema name => encodeSchemaBasename name
  | .table owner name _ _ => encodeTableBasename owner name
  | .part owner parent name _ => encodePartitionBasename owner parent name
  | .view owner name => encodeTableBasename owner name

def files (options : FileOptions) (basename : Name) : Entry → List Name
  | .schema _ =>
    (if options.ddl then
      getSchemaFilename basename ::
        if options.multifile then
          (if options.events then [getSchemaFilenameWith basename "events.sql".toList] else []) ++
            (if options.libraries then
              [getSchemaFilenameWith basename "libraries.sql".toList] else []) ++
              (if options.routines then
                [getSchemaFilenameWith basename "routines.sql".toList] else [])
        else []
    else []) ++
      if options.metadata then [getSchemaFilenameWith basename "json".toList] else []
  | .table _ _ hasTriggers data =>
    (if options.ddl then
      getTableFilename basename ::
        if options.triggers ∧ hasTriggers then
          [getTableDataFilename basename "triggers.sql".toList]
        else []
    else []) ++
      (if options.metadata then [getTableDataFilename basename "json".toList] else []) ++
        (data.map fun data => data.names basename).getD []
  | .part _ _ _ data => (data.map fun data => data.names basename).getD []
  | .view _ _ =>
    if options.ddl then
      [getTableDataFilename basename "pre.sql".toList, getTableFilename basename]
    else []

end Entry

/-- A table and its partitions; the data of a partitioned table is that of its partitions. -/
def TableInfo.entries (schema : Name) (table : TableInfo) : List Entry :=
  .table schema table.name table.hasTriggers (if table.partitions = [] then table.data else none) ::
    table.partitions.map fun (part, data) => .part schema table.name part data

/-- The objects of a schema in the order in which they get their base names. -/
def SchemaInfo.entries (schema : SchemaInfo) : List Entry :=
  .schema schema.name ::
    (schema.tables.flatMap (TableInfo.entries schema.name) ++ schema.views.map (.view schema.name))

/-- `create_schema_tasks`: every object gets a base name. -/
def createSchemaTasks : Basenames → List Entry → List (Entry × Name)
  | _, [] => []
  | basenames, entry :: entries =>
    let (basename, later) := basenames.get entry.encoded
    (entry, basename) :: createSchemaTasks later entries

def dumpFiles (options : FileOptions) (schemas : List SchemaInfo) : List Name :=
  (createSchemaTasks { maxLength := maxBasenameLength }
    (schemas.flatMap SchemaInfo.entries)).flatMap fun (entry, basename) =>
      entry.files options basename

end MariadbShell.Dump
