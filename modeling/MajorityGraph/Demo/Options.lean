/-!
The command line of the demonstration program, with the refusals it prints for unknown options
and misplaced values.
-/

-- Powers of naturals are computed by `Nat.pow`, whatever algebraic instances are in scope.
attribute [local instance (1100)] instPowNat

namespace MajorityGraph.Demo

/-- The settings of a demonstration run. -/
structure Options where
  pis : Nat := 10
  gates : Nat := 1000
  pos : Nat := 16
  seed : Nat := 42
  maxPis : Nat := 8
  progress : Bool := false
  resub : Bool := false
deriving Repr

/-- The settings as the program echoes them. -/
def Options.summary (o : Options) : String :=
  s!"Cli \x7b pis: {o.pis}, gates: {o.gates}, pos: {o.pos}, seed: {o.seed}, " ++
    s!"max_pis: {o.maxPis}, progress: {o.progress}, resub: {o.resub} \x7d"

/-- What a command line asks for. -/
inductive Request where
  | run (o : Options)
  | help
  | version
  /-- The command line is refused with these lines on the error stream. -/
  | refused (lines : List String)
deriving Repr

/-- The usage line. -/
def usageLine : String := "Usage: refactor [OPTIONS]"

/-- The closing line of every refusal. -/
def moreInfo : String := "For more information, try '--help'."

/-- The help text. -/
def helpLines : List String :=
  [usageLine, "", "Options:",
   "      --pis <INT>      Number of primary inputs [default: 10]",
   "      --gates <INT>    Number of random gates to generate [default: 1000]",
   "      --pos <INT>      Number of primary outputs [default: 16]",
   "      --seed <INT>     Random seed [default: 42]",
   "      --max-pis <INT>  Maximum number of cut leaves [default: 8]",
   "      --progress       Log every processed node",
   "      --resub          Follow refactoring with windowed resubstitution",
   "  -h, --help           Print help",
   "  -V, --version        Print version"]

/-- The version line. -/
def versionLine : String := "mig-rs 0.1.0"

/-- The program's own options, in the order it declares them. -/
def ownNames : List String := ["pis", "gates", "pos", "seed", "max-pis", "progress", "resub"]

/-- The long names, in the order the program declares them. -/
def longNames : List String := ownNames ++ ["help", "version"]

/-- Whether a long option takes a value. -/
def takesValue (name : String) : Bool := ["pis", "gates", "pos", "seed", "max-pis"].contains name

/-- How an option is written in usage lines: its long name, and `<INT>` for a value. -/
def usageForm (name : String) : String :=
  if takesValue name then s!"--{name} <INT>" else s!"--{name}"

/-- How an option is named in messages. -/
def shown (name : String) : String := s!"'{usageForm name}'"

/-- The program's own options named together as one group. -/
def groupForm : String := "<" ++ "|".intercalate (ownNames.map usageForm) ++ ">"

/-- The usage line that names `names`, each once, in the order of their first appearance; when
`grouped`, the program's own options among them give way to the group, written last. With
nothing to name it is the general usage line. -/
def usageFor (names : List String) (grouped : Bool) : String :=
  if names.isEmpty && !grouped then usageLine
  else
    let listed := (names.filter fun n => !(grouped && ownNames.contains n)).eraseDups
    let forms := listed.map usageForm ++ (if grouped then [groupForm] else [])
    "Usage: refactor" ++ String.join (forms.map (" " ++ ·))

/-- Reads an unsigned 64-bit decimal, with an optional leading `+`; the first fault met from
the left decides the message. -/
def parseU64 (s : String) : Except String Nat :=
  let cs := s.toList
  if cs.isEmpty then .error "cannot parse integer from empty string"
  else
    let digits := match cs with
      | '+' :: rest => rest
      | _ => cs
    if digits.isEmpty then .error "invalid digit found in string"
    else digits.foldlM (fun acc c =>
      if c.isDigit then
        let v := 10 * acc + (c.toNat - '0'.toNat)
        if v ≥ 2 ^ (64 : Nat) then .error "number too large to fit in target type" else .ok v
      else .error "invalid digit found in string") 0

/-- The Jaro similarity of two words, computed in doubles. -/
def jaro (a b : String) : Float :=
  let a := a.toList.toArray
  let b := b.toList.toArray
  if a.size == 0 && b.size == 0 then 1.0
  else if a.size == 0 || b.size == 0 then 0.0
  else
    let range := max a.size b.size / 2 - 1
    let (aFlags, bFlags, found) := (List.range a.size).foldl (fun (af, bf, m) i =>
      let lo := i - range
      let hi := min b.size (i + range + 1)
      match (List.range' lo (hi - lo)).find? (fun j => a[i]? == b[j]? && !(bf.getD j false)) with
      | some j => (af.set! i true, bf.set! j true, m + 1)
      | none => (af, bf, m)) (Array.replicate a.size false, Array.replicate b.size false, 0)
    if found == 0 then 0.0
    else
      let aMatched := (List.range a.size).filter (aFlags.getD · false) |>.map (a[·]?)
      let bMatched := (List.range b.size).filter (bFlags.getD · false) |>.map (b[·]?)
      let transpositions := ((aMatched.zip bMatched).filter fun p => p.1 != p.2).length / 2
      let m := found.toFloat
      (m / a.size.toFloat + m / b.size.toFloat + (found - transpositions).toFloat / m) / 3.0

/-- The known long name most similar to `name`, the last of the most similar ones, if its
similarity exceeds 0.7. -/
def suggestion (name : String) : Option String :=
  longNames.foldl (fun best cand =>
    let c := jaro name cand
    if c > 0.7 then
      match best with
      | some (_, bc) => if c ≥ bc then some (cand, c) else best
      | none => some (cand, c)
    else best) none |>.map (·.1)

/-- The refusal of an unexpected word, with the usage line to show. -/
def unexpected (word : String) (suggested : Option String) (usage : String) : Request :=
  let tip := match suggested with
    | some s => [s!"  tip: a similar argument exists: '--{s}'"]
    | none => []
  .refused ([s!"error: unexpected argument '{word}' found"] ++ tip ++ [usage, moreInfo])

/-- The refusal of an option given twice. -/
def repeated (name : String) : Request :=
  .refused [s!"error: the argument {shown name} cannot be used multiple times", usageLine, moreInfo]

/-- The refusal of a value given to an option without values, with the usage line to show. -/
def unneededValue (name value usage : String) : Request :=
  .refused [s!"error: unexpected value '{value}' for '--{name}' found; no more were expected",
    usage, moreInfo]

/-- The state of reading a command line: the options so far, the names of the options taken in
(oldest first), whether one of the program's own options was ever taken in, an option whose
value is not checked yet, and whether `--` ended the options. -/
structure Reading where
  opts : Options := {}
  taken : List String := []
  grouped : Bool := false
  pending : Option (String × List String) := none
  trailing : Bool := false

/-- Sets a value option from its text. -/
def setValue (o : Options) (name : String) (v : Nat) : Options :=
  match name with
  | "pis" => { o with pis := v }
  | "gates" => { o with gates := v }
  | "pos" => { o with pos := v }
  | "seed" => { o with seed := v }
  | _ => { o with maxPis := v }

/-- Takes in one of the program's own options with its values: a value option needs one value,
and no option may be given twice. The reading after the attempt comes back together with the
refusal, if any: an option without its value is left out, a repeated option is dropped from the
options taken in, and an option with an unreadable value is taken in all the same. -/
def takeIn (r : Reading) (name : String) (values : List String) : Reading × Option Request :=
  if takesValue name && values.isEmpty then
    (r, some (.refused
      [s!"error: a value is required for {shown name} but none was supplied", moreInfo]))
  else if r.taken.contains name then ({ r with taken := r.taken.erase name }, some (repeated name))
  else
    let r := { r with taken := r.taken ++ [name], grouped := true }
    match values with
    | v :: _ =>
      match parseU64 v with
      | .ok n => ({ r with opts := setValue r.opts name n }, none)
      | .error why =>
        (r, some (.refused [s!"error: invalid value '{v}' for {shown name}: {why}", moreInfo]))
    | [] =>
      match name with
      | "progress" => ({ r with opts := { r.opts with progress := true } }, none)
      | _ => ({ r with opts := { r.opts with resub := true } }, none)

/-- Takes in an option as `takeIn` does, stopping at its refusal. -/
def accept (r : Reading) (name : String) (values : List String) : Except Request Reading :=
  match takeIn r name values with
  | (r, none) => .ok r
  | (_, some refusal) => .error refusal

/-- The reading after the option held for its value, if any, is checked, whether the check
passes or not. -/
def settled (r : Reading) : Reading :=
  match r.pending with
  | some (name, values) => (takeIn { r with pending := none } name values).1
  | none => r

/-- Checks the option held for its value, if any. -/
def settle (r : Reading) : Except Request Reading :=
  match r.pending with
  | some (name, values) => accept { r with pending := none } name values
  | none => pure r

/-- Reacts to a named option without an attached value. -/
def named (r : Reading) (name : String) : Except Request Reading := do
  let r ← settle r
  match name with
  | "help" => throw .help
  | "version" => throw .version
  | _ => if takesValue name then pure { r with pending := some (name, []) } else accept r name []

/-- Reads a long option, given without its leading dashes. -/
def longOption (r : Reading) (body : String) : Except Request Reading :=
  let (name, attached) := match body.splitOn "=" with
    | n :: v :: rest => (n, some ("=".intercalate (v :: rest)))
    | _ => (body, none)
  if !longNames.contains name then
    let suggested := suggestion name
    throw (unexpected ("--" ++ name) suggested
      (usageFor ((settled r).taken ++ suggested.toList) false))
  else match attached with
    | none => named r name
    | some v =>
      if takesValue name then settle r >>= fun r => accept r name [v]
      else throw (unneededValue name v (usageFor (r.taken ++ [name]) r.grouped))

/-- Reads a word of short options: the first letter decides, since both short options answer
at once. -/
def shortOption (r : Reading) (c : Char) : Except Request Reading :=
  match c with
  | 'h' => named r "help"
  | 'V' => named r "version"
  | _ => throw (unexpected s!"-{c}" none usageLine)

/-- Reads one word of the command line. -/
def step (r : Reading) (word : String) : Except Request Reading :=
  if r.trailing then throw (unexpected word none usageLine)
  else if word == "--" then pure { r with trailing := true }
  else if word.startsWith "--" then longOption r (word.drop 2).toString
  else match word.toList, r.pending with
    | '-' :: c :: _, _ => shortOption r c
    | _, some (name, []) => pure { r with pending := some (name, [word]) }
    | _, _ => throw (unexpected word none usageLine)

/-- What a command line asks for. -/
def Request.ofArgs (args : List String) : Request :=
  match args.foldlM step {} >>= settle with
  | .ok r => .run r.opts
  | .error req => req

end MajorityGraph.Demo
