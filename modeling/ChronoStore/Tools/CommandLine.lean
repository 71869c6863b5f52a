import ChronoStore.Protocol.Accounting
import ChronoStore.Tools.NumberText
import ChronoStore.Tools.TagText

/-!
# The command-line client

`tools/chronostore_cli`: every invocation is a process of its own, which opens the database of a
directory with the default options, does one thing, prints what it has found and ends with a status:
0, or 2 where a sample was asked for that is not there, or 1 and a message where anything was thrown
(`main`). Nothing is printed before the one operation has returned, so what an exception leaves on
the output is nothing.

A command that opens a database does four things in order, whichever it is: it opens the directory,
it reads what is left of the command line, it asks the database, and it prints the answer
(`perform`, `main_eq`).
-/

namespace ChronoStore.CommandLine

open FaultyDisk

/-- `'\\t'`. -/
def tab : UInt8 := 0x09
/-- `'\\n'`. -/
def newline : UInt8 := 0x0A

/-- What a process leaves behind: its exit status, and what it has printed on the two streams. -/
structure Output where
  status : ℕ
  out : Bytes
  err : Bytes
deriving DecidableEq

/-! ### Reading the command line -/

/-- `parse_timestamp`: the whole word has to be a 64-bit integer. -/
def parseTimestamp (text : Bytes) : Except Error Timestamp :=
  match fromCharsInt64 text with
  | some n => .ok ⟨n⟩
  | none => .error (.invalidArgument ("invalid timestamp: " ++ render text))

/-- `parse_value`: the whole word has to be a number; that it is finite is checked by `Sample.make`.
-/
def parseValue (text : Bytes) : Except Error UInt64 :=
  match fromCharsDouble text with
  | some bits => .ok bits
  | none => .error (.invalidArgument ("invalid sample value: " ++ render text))

/-- The body of the loop of `parse_tags`: the first equals sign separates the key from the value. -/
def parseTag (encoded : Bytes) : Except Error Tag :=
  let key := encoded.takeWhile (· ≠ equalsSign)
  match encoded.dropWhile (· ≠ equalsSign) with
  | [] => .error (.invalidArgument ("invalid tag; expected key=value: " ++ render encoded))
  | _ :: value =>
    if key = [] then
      .error (.invalidArgument ("invalid tag; expected key=value: " ++ render encoded))
    else Tag.make key value

/-- `parse_tags`: each word is a tag, and the first that is none is reported. -/
def parseTags (tags : List Bytes) : Except Error (List Tag) := tags.mapM' parseTag

/-- `make_series`: the tags are parsed before the measurement is looked at. -/
def makeSeries (measurement : Bytes) (tags : List Bytes) : Except Error SeriesKey := do
  let tags ← parseTags tags
  SeriesKey.make measurement tags

/-! ### Printing -/

def line (text : Bytes) : Bytes := text ++ [newline]

/-- `print_sample`: timestamp and value, separated by a tab. Seventeen digits tell any two doubles
apart. -/
def printSample (sample : Sample) : Bytes :=
  line (printInt sample.timestamp.nanosecondsSinceEpoch.toInt ++ tab ::
    printDouble sample.value.bits)

/-- A tag, as `run_series` prints it and as a command line has it. -/
def printTag (tag : Tag) : Bytes := tag.key ++ equalsSign :: tag.value

/-- A line of `run_series`. -/
def printSeries (series : SeriesKey) : Bytes :=
  line (series.measurement ++ series.tags.flatMap fun tag ↦ tab :: printTag tag)

/-- The lines of `run_stats`. -/
def printStats (stats : StorageEngineStats) : Bytes :=
  line (ascii "samples" ++ tab :: decimal stats.logicalSampleCount) ++
    line (ascii "memtable_samples" ++ tab :: decimal stats.memtableSampleCount) ++
    line (ascii "segments" ++ tab :: decimal stats.segmentCount) ++
    line (ascii "wal_bytes" ++ tab :: decimal stats.walSizeBytes)

/-- `print_usage`: the help text, on whichever stream. -/
def usage (version : Bytes) : Bytes :=
  line (ascii "ChronoStore " ++ version) ++ line [] ++ line (ascii "Usage:") ++
    line (ascii "  chronostore put <db> <measurement> <timestamp-ns> <value> [key=value ...]") ++
    line (ascii "  chronostore get <db> <measurement> <timestamp-ns> [key=value ...]") ++
    line (ascii "  chronostore latest <db> <measurement> [key=value ...]") ++
    line (ascii "  chronostore range <db> <measurement> <start-ns> <end-ns> [key=value ...]") ++
    line (ascii "  chronostore series <db>") ++
    line (ascii "  chronostore stats <db>") ++
    line (ascii "  chronostore sync <db>") ++
    line (ascii "  chronostore flush <db>") ++
    line (ascii "  chronostore compact <db>") ++
    line (ascii "  chronostore --help") ++
    line (ascii "  chronostore --version")

/-- The text of an exception. -/
def what : DatabaseError → String
  | .corruption what => what
  | .busy what => what
  | .other error => error.what

/-- What `main` leaves behind when it has caught an exception. -/
def failure (error : DatabaseError) : Output :=
  ⟨1, [], line (ascii "chronostore: " ++ ascii (what error))⟩

/-! ### The commands -/

section Commands

variable {σ τ α : Type} (version : Bytes) (listing : Listing) (held : Bool)

/-- A program on a local object. The log of its steps is its own. -/
def within (s : τ) (m : DatabaseProg τ α) : DatabaseProg σ α := fun (s₀, w) ↦
  match m (s, ⟨⟨w.files, []⟩, w.sched⟩) with
  | .ok a (_, w') => .ok a (s₀, w')
  | .error stop (_, w') => .error stop (s₀, w')

/-- Throw what a constructor or a parser throws. -/
def check (m : Except Error α) : DatabaseProg σ α := untranslated (Act.ofExcept m)

/-- Opening a database with the default options, for as long as the process lives. -/
def openDatabase (directory : Bytes) : DatabaseProg Unit Database := do
  if directory = [] then
    Act.throw (.other (.invalidArgument "database directory cannot be empty"))
  else do
    takeLock held
    within () (constructEngine listing {})

/-- `run_put`: the database is open before the arguments are parsed, so one that
cannot be read is reported only if the directory is not locked and recovery succeeds. -/
def runPut : List Bytes → DatabaseProg Unit Output
  | _ :: _ :: directory :: measurement :: timestamp :: value :: tags => do
    let db ← openDatabase listing held directory
    let series ← check (makeSeries measurement tags)
    let timestamp ← check (parseTimestamp timestamp)
    let bits ← check (parseValue value)
    let sample ← check (Sample.make timestamp bits)
    within db (Database.put series sample)
    return ⟨0, [], []⟩
  | _ => Act.throw (.other (.invalidArgument
      "put requires a database, measurement, timestamp, and value"))

/-- The end of `run_latest` and `run_get`. -/
def foundSample : Option Sample → Output
  | none => ⟨2, [], []⟩
  | some sample => ⟨0, printSample sample, []⟩

/-- `run_latest`: nothing found is status 2, without a text. -/
def runLatest : List Bytes → DatabaseProg Unit Output
  | _ :: _ :: directory :: measurement :: tags => do
    let db ← openDatabase listing held directory
    let series ← check (makeSeries measurement tags)
    let sample ← within db (Database.latest series)
    return foundSample sample
  | _ => Act.throw (.other (.invalidArgument "latest requires a database and measurement"))

/-- `run_get`: like `run_latest`, for a timestamp. -/
def runGet : List Bytes → DatabaseProg Unit Output
  | _ :: _ :: directory :: measurement :: timestamp :: tags => do
    let db ← openDatabase listing held directory
    let series ← check (makeSeries measurement tags)
    let timestamp ← check (parseTimestamp timestamp)
    let sample ← within db (Database.get series timestamp)
    return foundSample sample
  | _ => Act.throw (.other (.invalidArgument
      "get requires a database, measurement, and timestamp"))

/-- `run_range`: one line for each sample; no sample is no failure here. -/
def runRange : List Bytes → DatabaseProg Unit Output
  | _ :: _ :: directory :: measurement :: start :: stop :: tags => do
    let db ← openDatabase listing held directory
    let series ← check (makeSeries measurement tags)
    let start ← check (parseTimestamp start)
    let stop ← check (parseTimestamp stop)
    let samples ← within db (Database.range series start stop)
    return ⟨0, samples.flatMap printSample, []⟩
  | _ => Act.throw (.other (.invalidArgument
      "range requires a database, measurement, start timestamp, and end timestamp"))

/-- `run_stats`: no argument but the directory. -/
def runStats : List Bytes → DatabaseProg Unit Output
  | [_, _, directory] => do
    let db ← openDatabase listing held directory
    let stats ← within db Database.stats
    return ⟨0, printStats stats, []⟩
  | _ => Act.throw (.other (.invalidArgument "stats requires exactly one database path"))

/-- `run_series`: one line for each series. -/
def runSeries : List Bytes → DatabaseProg Unit Output
  | [_, _, directory] => do
    let db ← openDatabase listing held directory
    let names ← within db Database.series
    return ⟨0, names.flatMap printSeries, []⟩
  | _ => Act.throw (.other (.invalidArgument "series requires exactly one database path"))

/-- `run_maintenance`: the three commands that print nothing. What is neither `sync` nor `flush`
compacts; `main` calls it for these three only. -/
def runMaintenance (command : Bytes) : List Bytes → DatabaseProg Unit Output
  | [_, _, directory] => do
    let db ← openDatabase listing held directory
    if command = ascii "sync" then within db Database.sync
    else if command = ascii "flush" then within db Database.flush
    else within db Database.compact
    return ⟨0, [], []⟩
  | _ => Act.throw (.other (.invalidArgument
      (render command ++ " requires exactly one database path")))

/-- The part of `main` that is under `try`. -/
def dispatch (arguments : List Bytes) : DatabaseProg Unit Output :=
  match arguments with
  | _ :: command :: _ =>
    if command = ascii "--help" ∨ command = ascii "help" then return ⟨0, usage version, []⟩
    else if command = ascii "--version" then return ⟨0, line (ascii "chronostore " ++ version), []⟩
    else if command = ascii "put" then runPut listing held arguments
    else if command = ascii "latest" then runLatest listing held arguments
    else if command = ascii "get" then runGet listing held arguments
    else if command = ascii "range" then runRange listing held arguments
    else if command = ascii "stats" then runStats listing held arguments
    else if command = ascii "series" then runSeries listing held arguments
    else if command = ascii "sync" ∨ command = ascii "flush" ∨ command = ascii "compact" then
      runMaintenance listing held command arguments
    else return ⟨1, [], line (ascii "chronostore: unknown command: " ++ command) ++ line [] ++
      usage version⟩
  | _ => return ⟨1, [], usage version⟩

/-- The handler of `main`. -/
def catching (m : DatabaseProg σ Output) : DatabaseProg σ Output := fun s ↦
  match m s with
  | .ok output t => .ok output t
  | .error (.exn error) t => .ok (failure error) t
  | .error .crash t => .error .crash t

/-- `main`. The words it is given are C strings, without a NUL byte; the functions here are defined
on all byte strings, and what is said of processes is said of such words (`Invocation`). -/
def main (arguments : List Bytes) : DatabaseProg Unit Output :=
  catching (dispatch version listing held arguments)

end Commands

/-! ### What a command line asks for -/

/-- A command line is answered at once, or it names a directory and a request, which may not be
readable. -/
abbrev Reading := Output ⊕ Bytes × Except Error Request

def refuse (what : String) : Reading := .inl (failure (.other (.invalidArgument what)))

def readPut : List Bytes → Reading
  | directory :: measurement :: timestamp :: value :: tags => .inr (directory, do
    let series ← makeSeries measurement tags
    let timestamp ← parseTimestamp timestamp
    let bits ← parseValue value
    let sample ← Sample.make timestamp bits
    return .put series sample)
  | _ => refuse "put requires a database, measurement, timestamp, and value"

def readLatest : List Bytes → Reading
  | directory :: measurement :: tags => .inr (directory, do
    let series ← makeSeries measurement tags
    return .latest series)
  | _ => refuse "latest requires a database and measurement"

def readGet : List Bytes → Reading
  | directory :: measurement :: timestamp :: tags => .inr (directory, do
    let series ← makeSeries measurement tags
    let timestamp ← parseTimestamp timestamp
    return .get series timestamp)
  | _ => refuse "get requires a database, measurement, and timestamp"

def readRange : List Bytes → Reading
  | directory :: measurement :: start :: stop :: tags => .inr (directory, do
    let series ← makeSeries measurement tags
    let start ← parseTimestamp start
    let stop ← parseTimestamp stop
    return .range series start stop)
  | _ => refuse "range requires a database, measurement, start timestamp, and end timestamp"

/-- A command with a directory and nothing else. -/
def readPlain (command : String) (r : Request) : List Bytes → Reading
  | [directory] => .inr (directory, .ok r)
  | _ => refuse (command ++ " requires exactly one database path")

def read (version : Bytes) : List Bytes → Reading
  | _ :: command :: rest =>
    if command = ascii "--help" ∨ command = ascii "help" then .inl ⟨0, usage version, []⟩
    else if command = ascii "--version" then .inl ⟨0, line (ascii "chronostore " ++ version), []⟩
    else if command = ascii "put" then readPut rest
    else if command = ascii "latest" then readLatest rest
    else if command = ascii "get" then readGet rest
    else if command = ascii "range" then readRange rest
    else if command = ascii "stats" then readPlain "stats" .stats rest
    else if command = ascii "series" then readPlain "series" .series rest
    else if command = ascii "sync" then readPlain "sync" .sync rest
    else if command = ascii "flush" then readPlain "flush" .flush rest
    else if command = ascii "compact" then readPlain "compact" .compact rest
    else .inl ⟨1, [], line (ascii "chronostore: unknown command: " ++ command) ++ line [] ++
      usage version⟩
  | _ => .inl ⟨1, [], usage version⟩

/-- How an answer is printed. -/
def answer : Response → Output
  | .sample found => foundSample found
  | .samples found => ⟨0, found.flatMap printSample, []⟩
  | .names found => ⟨0, found.flatMap printSeries, []⟩
  | .stats stats => ⟨0, printStats stats, []⟩
  | _ => ⟨0, [], []⟩

section Perform

variable {σ τ α β : Type} (version : Bytes) (listing : Listing) (held : Bool)

/-- What a command does: open, read, ask, print. -/
def perform (directory : Bytes) (question : Except Error Request) : DatabaseProg Unit Output := do
  let db ← openDatabase listing held directory
  let r ← check question
  let a ← within db (Database.respond r)
  return answer a

/-- What a process does whose command line has been read. -/
def follow : Reading → DatabaseProg Unit Output
  | .inl output => return output
  | .inr (directory, question) => catching (perform listing held directory question)

/-- Checks in sequence are the check of the sequence. -/
theorem check_bind (m : Except Error α) (k : α → Except Error β) :
    (check (m >>= k) : DatabaseProg σ β) = check m >>= fun a ↦ check (k a) := by
  cases m <;> rfl

theorem check_pure (a : α) : (check (pure a) : DatabaseProg σ α) = pure a := rfl

theorem check_ok (a : α) : (check (.ok a) : DatabaseProg σ α) = pure a := rfl

theorem within_map (s : τ) (m : DatabaseProg τ α) (f : α → β) :
    (within s (do return f (← m)) : DatabaseProg σ β) = do return f (← within s m) := by
  funext ⟨s₀, w⟩
  simp only [within, bind_apply]
  rcases m (s, ⟨⟨w.files, []⟩, w.sched⟩) with ⟨a, s', w'⟩ | ⟨err, s', w'⟩ <;> rfl

/-- `run_put` does what its words ask for, as `readPut` reads them. -/
theorem runPut_eq (program command : Bytes) (rest : List Bytes) :
    catching (runPut listing held (program :: command :: rest)) =
      follow listing held (readPut rest) := by
  rcases rest with _ | ⟨directory, _ | ⟨measurement, _ | ⟨timestamp, _ | ⟨value, tags⟩⟩⟩⟩
  case cons.cons.cons.cons =>
    simp only [runPut, readPut, follow, perform, check_bind, check_pure, Database.respond,
      within_map, bind_assoc, pure_bind, answer]
  all_goals rfl

theorem runLatest_eq (program command : Bytes) (rest : List Bytes) :
    catching (runLatest listing held (program :: command :: rest)) =
      follow listing held (readLatest rest) := by
  rcases rest with _ | ⟨directory, _ | ⟨measurement, tags⟩⟩
  case cons.cons =>
    simp only [runLatest, readLatest, follow, perform, check_bind, check_pure, Database.respond,
      within_map, bind_assoc, pure_bind, answer]
  all_goals rfl

theorem runGet_eq (program command : Bytes) (rest : List Bytes) :
    catching (runGet listing held (program :: command :: rest)) =
      follow listing held (readGet rest) := by
  rcases rest with _ | ⟨directory, _ | ⟨measurement, _ | ⟨timestamp, tags⟩⟩⟩
  case cons.cons.cons =>
    simp only [runGet, readGet, follow, perform, check_bind, check_pure, Database.respond,
      within_map, bind_assoc, pure_bind, answer]
  all_goals rfl

theorem runRange_eq (program command : Bytes) (rest : List Bytes) :
    catching (runRange listing held (program :: command :: rest)) =
      follow listing held (readRange rest) := by
  rcases rest with _ | ⟨directory, _ | ⟨measurement, _ | ⟨start, _ | ⟨stop, tags⟩⟩⟩⟩
  case cons.cons.cons.cons =>
    simp only [runRange, readRange, follow, perform, check_bind, check_pure, Database.respond,
      within_map, bind_assoc, pure_bind, answer]
  all_goals rfl

theorem runStats_eq (program command : Bytes) (rest : List Bytes) :
    catching (runStats listing held (program :: command :: rest)) =
      follow listing held (readPlain "stats" .stats rest) := by
  rcases rest with _ | ⟨directory, _ | ⟨other, rest⟩⟩
  case cons.nil =>
    simp only [runStats, readPlain, follow, perform, check_ok, Database.respond, within_map,
      bind_assoc, pure_bind, answer]
  all_goals rfl

theorem runSeries_eq (program command : Bytes) (rest : List Bytes) :
    catching (runSeries listing held (program :: command :: rest)) =
      follow listing held (readPlain "series" .series rest) := by
  rcases rest with _ | ⟨directory, _ | ⟨other, rest⟩⟩
  case cons.nil =>
    simp only [runSeries, readPlain, follow, perform, check_ok, Database.respond, within_map,
      bind_assoc, pure_bind, answer]
  all_goals rfl

/-- The three commands without an answer. -/
theorem runMaintenance_eq {command : String} {r : Request}
    (h : command = "sync" ∧ r = .sync ∨ command = "flush" ∧ r = .flush ∨ command = "compact" ∧
      r = .compact)
    (program : Bytes) (rest : List Bytes) :
    catching (runMaintenance listing held (ascii command) (program :: ascii command :: rest)) =
      follow listing held (readPlain command r rest) := by
  have hflush : ¬ascii "flush" = ascii "sync" := by decide
  have hcompact : ¬ascii "compact" = ascii "sync" := by decide
  have hcompact' : ¬ascii "compact" = ascii "flush" := by decide
  rcases rest with _ | ⟨directory, _ | ⟨other, rest⟩⟩ <;>
    rcases h with ⟨rfl, rfl⟩ | ⟨rfl, rfl⟩ | ⟨rfl, rfl⟩
  case cons.nil.inl | cons.nil.inr.inl | cons.nil.inr.inr =>
    simp only [runMaintenance, readPlain, follow, perform, check_ok, Database.respond, within_map,
      bind_assoc, pure_bind, answer, hflush, hcompact, hcompact', if_true, if_false]
  all_goals rfl

/-- **Every command does the same four things.** -/
theorem main_eq (arguments : List Bytes) :
    main version listing held arguments = follow listing held (read version arguments) := by
  rcases arguments with _ | ⟨program, _ | ⟨command, rest⟩⟩
  case cons.cons =>
    rw [main, dispatch, read]
    by_cases hhelp : command = ascii "--help" ∨ command = ascii "help"
    · rw [if_pos hhelp, if_pos hhelp]
      rfl
    rw [if_neg hhelp, if_neg hhelp]
    by_cases hversion : command = ascii "--version"
    · rw [if_pos hversion, if_pos hversion]
      rfl
    rw [if_neg hversion, if_neg hversion]
    by_cases hput : command = ascii "put"
    · rw [if_pos hput, if_pos hput, runPut_eq]
    rw [if_neg hput, if_neg hput]
    by_cases hlatest : command = ascii "latest"
    · rw [if_pos hlatest, if_pos hlatest, runLatest_eq]
    rw [if_neg hlatest, if_neg hlatest]
    by_cases hget : command = ascii "get"
    · rw [if_pos hget, if_pos hget, runGet_eq]
    rw [if_neg hget, if_neg hget]
    by_cases hrange : command = ascii "range"
    · rw [if_pos hrange, if_pos hrange, runRange_eq]
    rw [if_neg hrange, if_neg hrange]
    by_cases hstats : command = ascii "stats"
    · rw [if_pos hstats, if_pos hstats, runStats_eq]
    rw [if_neg hstats, if_neg hstats]
    by_cases hseries : command = ascii "series"
    · rw [if_pos hseries, if_pos hseries, runSeries_eq]
    rw [if_neg hseries, if_neg hseries]
    by_cases hsync : command = ascii "sync"
    · rw [if_pos (Or.inl hsync), if_pos hsync, hsync]
      exact runMaintenance_eq listing held (Or.inl ⟨rfl, rfl⟩) program rest
    rw [if_neg hsync]
    by_cases hflush : command = ascii "flush"
    · rw [if_pos (Or.inr (Or.inl hflush)), if_pos hflush, hflush]
      exact runMaintenance_eq listing held (Or.inr (Or.inl ⟨rfl, rfl⟩)) program rest
    rw [if_neg hflush]
    by_cases hcompact : command = ascii "compact"
    · rw [if_pos (Or.inr (Or.inr hcompact)), if_pos hcompact, hcompact]
      exact runMaintenance_eq listing held (Or.inr (Or.inr ⟨rfl, rfl⟩)) program rest
    · rw [if_neg (by simp [hsync, hflush, hcompact]), if_neg hcompact]
      rfl
  all_goals rfl

end Perform

end ChronoStore.CommandLine
