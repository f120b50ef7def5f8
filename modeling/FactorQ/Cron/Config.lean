/-
# `FactorQ.Cron.Config` — the schedule file of the cron adapter

A configuration is a ceiling on fires and a list of jobs.  It is read from a TOML file,
completed with the file's own defaults and validated; only then is it a `Config`.  What the
scheduler relies on afterwards is that no two jobs have one name, because fire state is kept
by name; that is a field here, and `validate_iff` is where it comes from.

An instant is an integer, in nanoseconds from Go's zero time, so `0` is the instant `IsZero` is about.
Cron expressions, time zones, JSON, TOML and the quoting of texts are libraries: `Libraries`
holds what is asked of them and assumes nothing about the answers.
-/
import Mathlib.Data.String.Basic
import Mathlib.Tactic

namespace FactorQ.Cron

def minute : Int := 60 * 1000000000

def defaultMaxFiresPerHour : Int := 120

inductive Level where
  | value
  | entries
  | items

/-- The values TOML decodes a payload to; an array of tables is a list like any other. -/
inductive Payload : Level → Type where
  | text (s : String) : Payload .value
  | table (entries : Payload .entries) : Payload .value
  | list (items : Payload .items) : Payload .value
  /-- a number, a truth value, a date -/
  | other (raw : String) : Payload .value
  | noEntry : Payload .entries
  | entry (key : String) (value : Payload .value) (rest : Payload .entries) : Payload .entries
  | noItem : Payload .items
  | item (value : Payload .value) (rest : Payload .items) : Payload .items
deriving DecidableEq

def substitute {level : Level} (replace : String → String) : Payload level → Payload level
  | .text s => .text (replace s)
  | .table entries => .table (substitute replace entries)
  | .list items => .list (substitute replace items)
  | .other raw => .other raw
  | .noEntry => .noEntry
  | .entry key value rest => .entry key (substitute replace value) (substitute replace rest)
  | .noItem => .noItem
  | .item value rest => .item (substitute replace value) (substitute replace rest)

structure Job where
  name : String
  schedule : String
  subject : String
  tz : String
  catchUp : String
  durable : Option Bool
  enabled : Option Bool
  payload : Option (Payload .entries)
  payloadJson : Option String
deriving DecidableEq

/-- `enabled = false` is the operator's off switch. -/
def Job.scheduled (job : Job) : Bool := job.enabled.getD true

structure Libraries where
  /-- `time.LoadLocation` -/
  loadLocation : String → Except String Unit
  /-- `cronParser.Parse`; the schedule says the next slot after an instant, in a time zone -/
  parse : String → Except String (String → Int → Int)
  /-- `time.ParseDuration` of `strings.TrimSpace` -/
  parseDuration : String → Except String Int
  /-- `json.Valid` -/
  valid : String → Bool
  /-- `json.Marshal` -/
  marshal : Payload .entries → Except String String
  /-- `Format(time.RFC3339)` of an instant in a time zone -/
  format : String → Int → String
  /-- `%q` of `fmt.Sprintf` -/
  quote : String → String
  /-- `strings.TrimSpace` -/
  trimSpace : String → String

/-- The schedule of a job in its time zone, when both are known. -/
def Libraries.timetable (lib : Libraries) (job : Job) : Option (Int → Int) :=
  match lib.loadLocation job.tz, lib.parse job.schedule with
  | .ok _, .ok next => some (next job.tz)
  | _, _ => none

/-! ## The file -/

structure Defaults where
  tz : String
  catchUp : String
  durable : Option Bool

/-- The file as TOML decodes it; `jobKey` says whether the key `job` is there at all. -/
structure File where
  data : String
  maxFiresPerHour : Int
  defaults : Defaults
  jobs : List Job
  jobKey : Bool

def orElse (text default : String) : String := if text = "" then default else text

def File.applyDefaults (file : File) : File :=
  let tz := orElse file.defaults.tz "UTC"
  let catchUp := orElse file.defaults.catchUp "skip"
  let durable := file.defaults.durable.getD true
  { file with
    maxFiresPerHour := if file.maxFiresPerHour = 0 then defaultMaxFiresPerHour else file.maxFiresPerHour
    defaults := ⟨tz, catchUp, some durable⟩
    jobs := file.jobs.map fun job =>
      { job with
        tz := orElse job.tz tz
        catchUp := orElse job.catchUp catchUp
        durable := some (job.durable.getD durable)
        enabled := some (job.enabled.getD true) } }

/-- `^[a-z0-9][a-z0-9-]*$` -/
def namePattern (name : String) : Bool :=
  let plain := fun c : Char => c.isLower || c.isDigit
  match name.toList with
  | [] => false
  | c :: rest => plain c && rest.all fun c => plain c || c == '-'

def validSubject (subject : String) : Bool :=
  subject != "" && !(subject.toList.any fun c => "*> \t\r\n".toList.contains c)
    && (subject.splitOn ".").all fun token => token != ""

/-- `time.Date(2000, 1, 1, 0, 0, 0, 0, time.UTC)` -/
def year2000 : Int := 730119 * 24 * 60 * minute

def validateSchedule (lib : Libraries) (spec : String) : Except String Unit := do
  if spec.startsWith "@every " then
    let d ← lib.parseDuration (spec.drop 7).toString
    if d < minute ∨ d % minute ≠ 0 then
      throw "interval must use whole minutes and be at least 1 minute"
  let schedule ← lib.parse spec
  let first := schedule "UTC" year2000
  let second := schedule "UTC" first
  if first = 0 ∨ second - first < minute then
    throw "interval must be at least 1 minute"

/-- The checks of one job; `seen` are the names before it. -/
def validateJob (lib : Libraries) (seen : List String) (job : Job) : Except String Unit := do
  let label := "job " ++ lib.quote job.name
  if job.name.utf8ByteSize > 64 ∨ !namePattern job.name then
    throw (label ++ ": name must match [a-z0-9][a-z0-9-]* and be at most 64 characters")
  if job.name ∈ seen then
    throw (label ++ ": duplicate name")
  match validateSchedule lib job.schedule with
  | .ok _ => pure ()
  | .error e => throw (label ++ ": schedule: " ++ e)
  if !validSubject job.subject then
    throw (label ++ ": subject must be concrete, non-empty, and contain no wildcards or whitespace")
  match lib.loadLocation job.tz with
  | .ok _ => pure ()
  | .error e => throw (label ++ ": invalid timezone " ++ lib.quote job.tz ++ ": " ++ e)
  if job.catchUp ≠ "skip" ∧ job.catchUp ≠ "once" then
    throw (label ++ ": catch_up must be \"skip\" or \"once\"")
  if job.payload.isSome ∧ job.payloadJson.isSome then
    throw (label ++ ": exactly one of payload and payload_json may be set")
  match job.payloadJson with
  | none => pure ()
  | some text => if !lib.valid text then throw (label ++ ": payload_json is not valid JSON")

def validateJobs (lib : Libraries) : List String → List Job → Except String Unit
  | _, [] => .ok ()
  | seen, job :: jobs => do
      validateJob lib seen job
      validateJobs lib (job.name :: seen) jobs

def validate (lib : Libraries) (file : File) : Except String Unit := do
  if file.maxFiresPerHour ≤ 0 then
    throw "limits.max_fires_per_hour must be greater than zero"
  validateJobs lib [] file.jobs

/-- What is in force: the jobs, no two of one name, and the ceiling over them all. -/
structure Config where
  maxFiresPerHour : Int
  jobs : List Job
  distinct : (jobs.map Job.name).Nodup
deriving DecidableEq

def Config.names (config : Config) : List String := config.jobs.map Job.name

variable {config : Config} {job : Job}

theorem Config.mem_names (h : job ∈ config.jobs) : job.name ∈ config.names :=
  List.mem_map_of_mem h

/-- `jobsByName(config)[name]` -/
def Config.job? (config : Config) (name : String) : Option Job :=
  config.jobs.find? fun job => job.name = name

theorem Config.job?_mem {name : String} (h : config.job? name = some job) :
    job ∈ config.jobs ∧ job.name = name :=
  ⟨List.mem_of_find?_eq_some h, by simpa using List.find?_some h⟩

theorem Config.job?_of_mem (h : job ∈ config.jobs) : config.job? job.name = some job := by
  have hsome : (config.job? job.name).isSome := by
    rw [Config.job?, List.find?_isSome]
    exact ⟨job, h, by simp⟩
  obtain ⟨job', hjob'⟩ := Option.isSome_iff_exists.1 hsome
  obtain ⟨hmem, hname⟩ := Config.job?_mem hjob'
  rw [hjob', List.inj_on_of_nodup_map config.distinct hmem h hname]

/-! ## Validation makes a configuration -/

variable {lib : Libraries}

/-- The checks stop at the first that fails. -/
theorem check_ok {p : Prop} [Decidable p] {e : String} {rest : Except String Unit} :
    (if p then (do throw e; rest) else rest) = .ok () ↔ ¬ p ∧ rest = .ok () := by
  by_cases hp : p
  · rw [if_pos hp]
    exact iff_of_false nofun fun h => h.1 hp
  · simp [hp]

theorem validateJob_iff {seen : List String} :
    validateJob lib seen job = .ok () ↔ job.name ∉ seen ∧ validateJob lib [] job = .ok () := by
  simp only [validateJob, check_ok, List.not_mem_nil]
  tauto

theorem validateJobs_iff {jobs : List Job} {seen : List String} :
    validateJobs lib seen jobs = .ok () ↔
      (jobs.map Job.name).Nodup ∧ ∀ job ∈ jobs, job.name ∉ seen ∧ validateJob lib [] job = .ok () := by
  induction jobs generalizing seen with
  | nil => simp [validateJobs]
  | cons job jobs ih =>
    have hbind : validateJobs lib seen (job :: jobs) = .ok () ↔
        validateJob lib seen job = .ok () ∧ validateJobs lib (job.name :: seen) jobs = .ok () := by
      rw [validateJobs]
      cases validateJob lib seen job <;> simp [bind, Except.bind]
    rw [hbind, validateJob_iff, ih]
    -- the names before are those seen and the job's own
    simp only [List.map_cons, List.nodup_cons, List.mem_cons, List.mem_map, not_exists, not_and, not_or,
      forall_eq_or_imp, forall_and]
    tauto

theorem validate_iff {file : File} : validate lib file = .ok () ↔
    0 < file.maxFiresPerHour ∧ (file.jobs.map Job.name).Nodup ∧ ∀ job ∈ file.jobs, validateJob lib [] job = .ok () := by
  simp [validate, check_ok, validateJobs_iff]

/-- The line with the name of the job an error is about comes first, if one is found. -/
def locate (lib : Libraries) (file : File) (e : String) : String :=
  let named := fun text (job : Job) =>
    e.contains ("job " ++ lib.quote job.name) && lib.trimSpace text == "name = " ++ lib.quote job.name
  match (file.data.splitOn "\n").findIdx? fun text => file.jobs.any (named text) with
  | some line => "line " ++ toString (line + 1) ++ ": " ++ e
  | none => e

/-- `ParseConfig`, from the decoded file on. -/
def parseConfig (lib : Libraries) (decoded : Except String File) : Except String Config :=
  match decoded with
  | .error e => .error ("parse TOML: " ++ e)
  | .ok file =>
    let file := file.applyDefaults
    match h : validate lib file with
    | .error e => .error (locate lib file e)
    | .ok _ =>
      if file.jobs = [] ∧ !file.jobKey then
        .error (toString file.data.utf8ByteSize ++ " bytes declaring no jobs, and no explicit `job = []`")
      else .ok ⟨file.maxFiresPerHour, file.jobs, (validate_iff.mp h).2.1⟩

/-- A file is accepted exactly if each job passes its checks alone, the names differ, fires are allowed, and a
file of no jobs says so; in force is what the defaults make of it. -/
theorem parseConfig_ok_iff (lib : Libraries) (file : File) (config : Config) :
    parseConfig lib (.ok file) = .ok config ↔
      (file.jobs ≠ [] ∨ file.jobKey = true) ∧ config.maxFiresPerHour = file.applyDefaults.maxFiresPerHour ∧
        config.jobs = file.applyDefaults.jobs ∧ 0 < config.maxFiresPerHour ∧
        ∀ job ∈ config.jobs, validateJob lib [] job = .ok () := by
  have hsome : file.applyDefaults.jobs = [] ∧ (!file.applyDefaults.jobKey) = true ↔
      ¬ (file.jobs ≠ [] ∨ file.jobKey = true) := by
    simp [File.applyDefaults]
  obtain ⟨limit, jobs, distinct⟩ := config
  unfold parseConfig
  dsimp only
  split
  · next e he =>
    refine iff_of_false nofun ?_
    rintro ⟨-, rfl, rfl, hpos, hjobs⟩
    cases he.symm.trans (validate_iff.mpr ⟨hpos, distinct, hjobs⟩)
  · next u he =>
    obtain ⟨hpos, -, hjobs⟩ := validate_iff.mp he
    simp only [hsome]
    split
    · next hnone => exact iff_of_false nofun fun h => hnone h.1
    · next hsome =>
      constructor
      · rintro ⟨⟩
        exact ⟨not_not.mp hsome, rfl, rfl, hpos, hjobs⟩
      · rintro ⟨-, rfl, rfl, -⟩
        rfl

/-! ## What a reload changes -/

structure ConfigDiff where
  added : List String
  removed : List String
  changed : List String

structure ReloadEvent where
  config : Config
  diff : ConfigDiff

def sorted (names : List String) : List String := names.insertionSort (· ≤ ·)

def diffConfigs (old next : Config) : ConfigDiff where
  added := sorted (next.names.filter fun name => name ∉ old.names)
  removed := sorted (old.names.filter fun name => name ∉ next.names)
  changed := sorted ((next.jobs.filter fun job =>
    match old.job? job.name with
    | none => false
    | some oldJob => oldJob ≠ job).map Job.name)

end FactorQ.Cron
