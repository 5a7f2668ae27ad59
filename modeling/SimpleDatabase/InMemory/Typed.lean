/- InMemory.Typed -- what is typed, and the instructions it stands for

`InFile` and `Typed` say which keys a file stands for, and which instructions a text, where
a number that is missing is what its variable has held before.  The program reads and
executes by turns, and it does with a file and a text what `main` does with the keys and the
instructions they stand for (`mainText_iff`).  What the program asks its user to type
stands for what it should (`mainText_lines`).  A file with a letter in it stands for
nothing, nor does a text that breaks off in a line and does not quit before: there the
program hangs (`mainText_hangs`).
-/
import SimpleDatabase.Bpt.Input

namespace SimpleDatabase.InMemory

open SimpleDatabase.Theory SimpleDatabase.Bpt

set_option autoImplicit false

/-! ## Lines -/

/-- What is behind the line that a text starts with, if it has an end. -/
def behindLine (text : List Char) : Option (List Char) := (text.dropWhile (· ≠ '\n')).tail?

theorem behindLine_cons {c : Char} (text : List Char) :
    behindLine (c :: text) = if c = '\n' then some text else behindLine text := by
  by_cases same : c = '\n' <;> simp [behindLine, same]

theorem skipLine_ended {text rest : List Char} (behind : behindLine text = some rest) {fuel : Nat}
    (enough : text.length ≤ fuel) : skipLine fuel text = .ok rest := by
  induction text generalizing fuel with
  | nil => cases behind
  | cons c text ih =>
      obtain ⟨fuel, rfl⟩ := Nat.exists_eq_add_of_le' enough
      rw [behindLine_cons] at behind
      show (if c = '\n' then Except.ok text else skipLine (fuel + text.length) text) = .ok rest
      by_cases same : c = '\n'
      · rw [if_pos same] at behind ⊢
        rw [Option.some.inj behind]
      · rw [if_neg same] at behind ⊢
        exact ih behind (Nat.le_add_left _ _)

theorem behindLine_of_skipLine {fuel : Nat} {text rest : List Char} (run : skipLine fuel text = .ok rest) :
    behindLine text = some rest := by
  induction fuel generalizing text with
  | zero => cases run
  | succ fuel ih =>
      cases text with
      | nil => cases ih run
      | cons c text =>
          rw [skipLine] at run
          rw [behindLine_cons]
          by_cases same : c = '\n'
          · rw [if_pos same] at run ⊢
            cases run
            rfl
          · rw [if_neg same] at run ⊢
            exact ih run

theorem behindLine_suffix {text rest : List Char} (behind : behindLine text = some rest) :
    '\n' :: rest <:+ text := by
  induction text with
  | nil => cases behind
  | cons c text ih =>
      rw [behindLine_cons] at behind
      by_cases same : c = '\n'
      · rw [if_pos same] at behind
        cases behind
        subst same
        exact List.suffix_rfl
      · rw [if_neg same] at behind
        exact (ih behind).trans (List.suffix_cons c text)

/-! ## What a text stands for -/

section Reading

variable (scanf : Scanf)

/-- The keys of a file, and what is in `input` in the end. -/
inductive InFile : Key → List Char → List Key → Key → Prop
  | last {input key : Key} {text : List Char} (scan : scanKey scanf input text = (key, [])) :
      InFile input text [key] key
  | more {input key final : Key} {text rest : List Char} {keys : List Key}
      (scan : scanKey scanf input text = (key, rest)) (left : rest ≠ []) (later : InFile key rest keys final) :
      InFile input text (key :: keys) final

/-- The keys of the input file, if there is one, and the variables behind it. -/
inductive Loaded (v : Scanned) : Option (List Char) → Option (List Key) → Scanned → Prop
  | none : Loaded v none none v
  | some {text : List Char} {keys : List Key} {final : Key} (inFile : InFile scanf v.input text keys final) :
      Loaded v (some text) (some keys) { v with input := final }

/-- The instructions of a text. -/
inductive Typed : Scanned → List Char → List Instruction → Prop
  | eof (v : Scanned) : Typed v [] []
  | quit (v : Scanned) {text rest : List Char} (ended : behindLine text = some rest) : Typed v ('q' :: text) []
  | line {v w : Scanned} {c : Char} {text left rest : List Char} {i : Instruction} {is : List Instruction}
      (other : c ≠ 'q') (scan : scanInstruction scanf v c text = (i, w, left))
      (ended : behindLine left = some rest) (later : Typed w rest is) : Typed v (c :: text) (i :: is)

theorem scanInt_suffix (held : Int32) (text : List Char) : (scanInt scanf held text).2 <:+ text :=
  scanNumeral_suffix text

theorem scanRange_suffix (v : Scanned) (text : List Char) : (scanRange scanf v text).2 <:+ text := by
  have first := scanNumeral_suffix text
  rcases shape : scanNumeral text with ⟨n, rest⟩
  rw [shape] at first
  rw [scanRange, shape]
  cases n with
  | none => exact first
  | some n => exact (scanInt_suffix scanf v.range2 rest).trans first

/-- An instruction takes nothing but the beginning of the text. -/
theorem scanInstruction_suffix (v : Scanned) (c : Char) (text : List Char) :
    (scanInstruction scanf v c text).2.2 <:+ text := by
  have one := scanInt_suffix scanf v.input text
  have two := scanRange_suffix scanf v text
  unfold scanInstruction
  dsimp only
  split
  · exact one
  · exact one
  · exact one
  · exact one
  · exact two
  all_goals exact List.suffix_rfl

end Reading

/-! ## Reading and executing by turns -/

section Loops

variable {scanf : Scanf} {order : Nat} {heap : Malloc} {room : Nat}

/-- A text is executed as its instructions are. -/
theorem scanLoop_eq {v : Scanned} {text : List Char} {is : List Instruction} (typed : Typed scanf v text is)
    {fuel rounds : Nat} (fuel_le : text.length < fuel) (rounds_le : text.length < rounds) (s : Session) :
    scanLoop order heap scanf room fuel rounds text s v = commandLoop order heap room fuel s is := by
  obtain ⟨rounds, rfl⟩ : ∃ n, rounds = n + 1 := ⟨rounds - 1, by omega⟩
  induction typed generalizing rounds s with
  | eof v => rfl
  | quit v ended =>
      rw [List.length_cons] at fuel_le
      rw [scanLoop, if_pos rfl, skipLine_ended ended (by omega)]
      rfl
  | @line v w c text left rest i is other scan ended later ih =>
      have shorter := (scanInstruction_suffix scanf v c text).length_le
      have behind := (behindLine_suffix ended).length_le
      replace shorter : left.length ≤ text.length := by rwa [scan] at shorter
      rw [List.length_cons] at fuel_le rounds_le behind
      rw [scanLoop, if_neg other, scan, commandLoop]
      dsimp only
      cases execute order heap room fuel s i with
      | error e => rfl
      | ok done =>
          obtain ⟨n, rfl⟩ : ∃ n, rounds = n + 1 := ⟨rounds - 1, by omega⟩
          rw [Exec.ok_bind, Exec.ok_bind, skipLine_ended ended (by omega), Exec.ok_bind,
            ih (by omega) done.1 n (by omega)]

/-- What is executed to its end has been read to its end. -/
theorem typed_of_scanLoop {v : Scanned} {text : List Char} {s : Session} {fuel rounds : Nat}
    {r : Session × List Output} (run : scanLoop order heap scanf room fuel rounds text s v = .ok r) :
    ∃ is, Typed scanf v text is := by
  induction rounds generalizing text s v r with
  | zero => cases run
  | succ rounds ih =>
      cases text with
      | nil => exact ⟨[], .eof v⟩
      | cons c text =>
          rw [scanLoop] at run
          by_cases quits : c = 'q'
          · rw [if_pos quits, Exec.bind_eq_ok] at run
            obtain ⟨rest, ended, -⟩ := run
            subst quits
            exact ⟨[], .quit v (behindLine_of_skipLine ended)⟩
          · rw [if_neg quits] at run
            rcases scan : scanInstruction scanf v c text with ⟨i, w, left⟩
            rw [scan] at run
            simp only [Exec.bind_eq_ok] at run
            obtain ⟨_, _, rest, ended, _, later, _⟩ := run
            obtain ⟨is, typed⟩ := ih later
            exact ⟨i :: is, .line quits scan (behindLine_of_skipLine ended) typed⟩

/-- A file is loaded as its keys are. -/
theorem scanFileLoop_eq {input final : Key} {text : List Char} {keys : List Key}
    (inFile : InFile scanf input text keys final) {fuel rounds : Nat} (rounds_le : keys.length ≤ rounds)
    (s : Session) :
    scanFileLoop order heap scanf fuel rounds text s input =
      load order heap fuel s keys >>= fun s => .ok (s, final) := by
  induction inFile generalizing rounds s with
  | @last input key text scan =>
      obtain ⟨rounds, rfl⟩ := Nat.exists_eq_add_of_le' rounds_le
      rw [List.length_singleton, scanFileLoop, scan, load]
      dsimp only
      cases insert order heap fuel s.memory s.root key key with
      | error e => rfl
      | ok done => rfl
  | @more input key final text rest keys scan left later ih =>
      obtain ⟨rounds, rfl⟩ := Nat.exists_eq_add_of_le' rounds_le
      rw [List.length_cons, ← Nat.add_assoc, scanFileLoop, scan, load]
      dsimp only
      cases insert order heap fuel s.memory s.root key key with
      | error e => rfl
      | ok done => rw [Exec.ok_bind, Exec.ok_bind, if_neg left, ih (Nat.le_add_left _ _)]

theorem inFile_of_scanFileLoop {input : Key} {text : List Char} {s : Session} {fuel rounds : Nat}
    {r : Session × Key} (run : scanFileLoop order heap scanf fuel rounds text s input = .ok r) :
    ∃ keys, InFile scanf input text keys r.2 := by
  induction rounds generalizing text s input with
  | zero => cases run
  | succ rounds ih =>
      rw [scanFileLoop] at run
      rcases scan : scanKey scanf input text with ⟨key, rest⟩
      rw [scan] at run
      simp only [Exec.bind_eq_ok] at run
      obtain ⟨_, _, run⟩ := run
      by_cases last : rest = []
      · rw [if_pos last] at run
        cases run
        exact ⟨[key], .last (last ▸ scan)⟩
      · rw [if_neg last] at run
        obtain ⟨keys, inFile⟩ := ih run
        exact ⟨key :: keys, .more scan last inFile⟩

theorem scanFile_eq {v w : Scanned} {file : Option (List Char)} {keys : Option (List Key)}
    (loaded : Loaded scanf v file keys w) {fuel : Nat} (enough : (keys.getD []).length ≤ fuel) :
    scanFile order heap scanf fuel v file = readFile order heap fuel keys >>= fun r => .ok (r.1, w, r.2) := by
  cases loaded with
  | none => rfl
  | @some text keys final inFile =>
      rw [scanFile, scanFileLoop_eq inFile enough, readFile]
      cases load order heap fuel Session.start keys with
      | error e => rfl
      | ok s =>
          simp only [Exec.ok_bind]
          cases showTree order fuel s with
          | error e => rfl
          | ok done => rfl

theorem loaded_of_scanFile {v : Scanned} {file : Option (List Char)} {fuel : Nat}
    {r : Session × Scanned × Output} (run : scanFile order heap scanf fuel v file = .ok r) :
    ∃ keys, Loaded scanf v file keys r.2.1 := by
  cases file with
  | none =>
      cases run
      exact ⟨none, .none⟩
  | some text =>
      simp only [scanFile, Exec.bind_eq_ok] at run
      obtain ⟨loaded, scan, shown, _, same⟩ := run
      obtain ⟨keys, inFile⟩ := inFile_of_scanFileLoop scan
      cases same
      exact ⟨some keys, .some inFile⟩

end Loops

/-! ## The whole program -/

section Main

variable {scanf : Scanf} {heap : Malloc} {room : Nat} {v : Scanned} {argument file : Option (List Char)}
  {text : List Char}

theorem mainText_eq {w : Scanned} {keys : Option (List Key)} {is : List Instruction}
    (loaded : Loaded scanf v file keys w) (typed : Typed scanf w text is) {fuel : Nat}
    (keys_le : (keys.getD []).length ≤ fuel) (text_le : text.length < fuel) :
    mainText heap scanf room v argument file text fuel = main heap room (argument.map (atoi scanf)) keys is fuel := by
  rw [mainText, main]
  cases argumentOrder (argument.map (atoi scanf)) with
  | error e => rfl
  | ok order =>
      rw [Exec.ok_bind, Exec.ok_bind, scanFile_eq loaded keys_le]
      cases readFile order heap fuel keys with
      | error e => rfl
      | ok done =>
          simp only [Exec.ok_bind]
          rw [scanLoop_eq typed text_le text_le]

theorem read_of_mainText {fuel : Nat} {r : Session × List Output}
    (run : mainText heap scanf room v argument file text fuel = .ok r) :
    ∃ keys w is, Loaded scanf v file keys w ∧ Typed scanf w text is := by
  simp only [mainText, Exec.bind_eq_ok] at run
  obtain ⟨order, _, scanned, first, done, second, _⟩ := run
  obtain ⟨keys, loaded⟩ := loaded_of_scanFile first
  obtain ⟨is, typed⟩ := typed_of_scanLoop second
  exact ⟨keys, scanned.2.1, is, loaded, typed⟩

/-- Input that stands for something. -/
theorem mainText_main {w : Scanned} {keys : Option (List Key)} {is : List Instruction} {r : Session × List Output}
    (loaded : Loaded scanf v file keys w) (typed : Typed scanf w text is) :
    Returns (fun fuel => mainText heap scanf room v argument file text fuel) r ↔
      Returns (fun fuel => main heap room (argument.map (atoi scanf)) keys is fuel) r := by
  have same : ∀ fuel, (keys.getD []).length + text.length + 1 ≤ fuel →
      mainText heap scanf room v argument file text fuel = main heap room (argument.map (atoi scanf)) keys is fuel := by
    intro fuel enough
    exact mainText_eq loaded typed (by omega) (by omega)
  constructor
  · intro returns
    exact returns.of_eq _ fun fuel enough => (same fuel enough).symm
  · intro returns
    exact returns.of_eq _ same

/-- **Reading and executing can be told apart**: the program returns what it returns on the
keys and the instructions that its input stands for, and on input that stands for none it does
not return. -/
theorem mainText_iff (heap : Malloc) (scanf : Scanf) (room : Nat) (v : Scanned)
    (argument file : Option (List Char)) (text : List Char) (r : Session × List Output) :
    Returns (fun fuel => mainText heap scanf room v argument file text fuel) r ↔
      ∃ keys w is, Loaded scanf v file keys w ∧ Typed scanf w text is ∧
        Returns (fun fuel => main heap room (argument.map (atoi scanf)) keys is fuel) r := by
  constructor
  · intro returns
    obtain ⟨enough, run⟩ := returns
    obtain ⟨keys, w, is, loaded, typed⟩ := read_of_mainText (run enough (Nat.le_refl enough))
    exact ⟨keys, w, is, loaded, typed, (mainText_main loaded typed).mp ⟨enough, run⟩⟩
  · rintro ⟨keys, w, is, loaded, typed, returns⟩
    exact (mainText_main loaded typed).mpr returns

end Main

/-! ## What the program asks its user to type -/

def command : Instruction → Char
  | .delete _ => 'd'
  | .insert _ => 'i'
  | .find _ => 'f'
  | .path _ => 'p'
  | .range _ _ => 'r'
  | .leaves => 'l'
  | .tree => 't'
  | .verbose => 'v'
  | .destroy => 'x'
  | .other => '?'

/-- The numbers of an instruction, each behind a blank. -/
def numbers : Instruction → List Char
  | .delete input | .insert input | .find input | .path input => ' ' :: (decimal input).toList
  | .range input range2 => ' ' :: (decimal input).toList ++ ' ' :: (decimal range2).toList
  | .leaves | .tree | .verbose | .destroy | .other => []

def lines (is : List Instruction) : List Char := is.flatMap fun i => command i :: numbers i ++ ['\n']

def fileLines (keys : List Key) : List Char := keys.flatMap fun k => (decimal k).toList ++ ['\n']

section Lines

variable (scanf : Scanf)

theorem separated_cons {c : Char} (text : List Char) (other : c.isDigit = false) : Separated (c :: text) := by
  intro d head
  cases head
  exact other

/-- A number behind a blank. -/
theorem scanNumeral_decimal (n : Int32) {rest : List Char} (separated : Separated rest) :
    scanNumeral (' ' :: ((decimal n).toList ++ rest)) = (some n.toInt, rest) :=
  scanNumeral_numeral (all_space (c := ' ') rfl) n.toInt separated

theorem scanInt_decimal (held n : Int32) {rest : List Char} (separated : Separated rest) :
    scanInt scanf held (' ' :: ((decimal n).toList ++ rest)) = (n, rest) := by
  rw [scanInt, scanNumeral_decimal n separated]
  exact congrArg (·, rest) (scanf.stores n)

theorem scanRange_decimal (v : Scanned) (a b : Int32) {rest : List Char} (separated : Separated rest) :
    scanRange scanf v (' ' :: ((decimal a).toList ++ ' ' :: ((decimal b).toList ++ rest))) = (⟨a, b⟩, rest) := by
  rw [scanRange, scanNumeral_decimal a (separated_cons _ (by decide))]
  dsimp only
  rw [scanInt_decimal scanf v.range2 b separated, scanf.stores a]

/-- The end of a line. -/
theorem separated_line (rest : List Char) : Separated ('\n' :: rest) := separated_cons rest (by decide)

/-- A line is read as its instruction, up to its end. -/
theorem scan_line (v : Scanned) (i : Instruction) (rest : List Char) :
    ∃ w, scanInstruction scanf v (command i) (numbers i ++ '\n' :: rest) = (i, w, '\n' :: rest) := by
  have one (n : Key) := scanInt_decimal scanf v.input n (separated_line rest)
  have two (a b : Key) := scanRange_decimal scanf v a b (separated_line rest)
  cases i with
  | delete input | insert input | find input | path input =>
      refine ⟨{ v with input }, ?_⟩
      simp only [command, numbers, List.cons_append, scanInstruction, one]
  | range a b =>
      refine ⟨if a > b then ⟨b, a⟩ else ⟨a, b⟩, ?_⟩
      simp only [command, numbers, List.cons_append, List.append_assoc, scanInstruction, two]
  | leaves => exact ⟨v, rfl⟩
  | tree => exact ⟨v, rfl⟩
  | verbose => exact ⟨v, rfl⟩
  | destroy => exact ⟨v, rfl⟩
  | other => exact ⟨v, rfl⟩

theorem typed_lines (v : Scanned) (is : List Instruction) : Typed scanf v (lines is) is := by
  induction is generalizing v with
  | nil => exact .eof v
  | cons i is ih =>
      obtain ⟨w, scan⟩ := scan_line scanf v i (lines is)
      have quits : command i ≠ 'q' := by cases i <;> exact nofun
      have ended : behindLine ('\n' :: lines is) = some (lines is) := by rw [behindLine_cons, if_pos rfl]
      have typed := Typed.line quits scan ended (ih w)
      rw [lines, List.flatMap_cons, List.append_assoc]
      exact typed

/-- A key is read with the end of its line. -/
theorem scanKey_line (input key : Key) {rest : List Char} (stops : ∀ c ∈ rest.head?, isSpace c = false) :
    scanKey scanf input ((decimal key).toList ++ '\n' :: rest) = (key, rest) := by
  have read : scanNumeral ((decimal key).toList ++ '\n' :: rest) = (some key.toInt, '\n' :: rest) :=
    scanNumeral_numeral (List.forall_mem_nil _) key.toInt (separated_line rest)
  have skip : skipSpaces ('\n' :: rest) = rest := skipSpaces_append (all_space (c := '\n') rfl) stops
  rw [scanKey, read]
  exact congrArg₂ Prod.mk (scanf.stores key) skip

theorem fileLines_cons (key : Key) (keys : List Key) :
    fileLines (key :: keys) = (decimal key).toList ++ '\n' :: fileLines keys := by
  rw [fileLines, List.flatMap_cons, List.append_assoc]
  rfl

theorem fileLines_stops (keys : List Key) : ∀ c ∈ (fileLines keys).head?, isSpace c = false := by
  cases keys with
  | nil =>
      intro c head
      cases head
  | cons key keys =>
      rw [fileLines_cons]
      exact numeral_stops key.toInt _

theorem inFile_lines (input key : Key) (keys : List Key) :
    ∃ final, InFile scanf input (fileLines (key :: keys)) (key :: keys) final := by
  induction keys generalizing input key with
  | nil =>
      refine ⟨key, .last ?_⟩
      rw [fileLines_cons]
      exact scanKey_line scanf input key (fileLines_stops [])
  | cons next keys ih =>
      obtain ⟨final, later⟩ := ih key next
      refine ⟨final, .more ?_ ?_ later⟩
      · rw [fileLines_cons]
        exact scanKey_line scanf input key (fileLines_stops (next :: keys))
      · rw [fileLines_cons]
        simp

/-- A file is loaded with all its keys, if it has one. -/
theorem loaded_lines (v : Scanned) {keys : Option (List Key)} (some_ : keys ≠ some []) :
    ∃ w, Loaded scanf v (keys.map fileLines) keys w := by
  cases keys with
  | none => exact ⟨v, .none⟩
  | some keys =>
      cases keys with
      | nil => exact absurd rfl some_
      | cons key keys =>
          obtain ⟨final, inFile⟩ := inFile_lines scanf v.input key keys
          exact ⟨_, .some inFile⟩

theorem atoi_decimal (n : Int32) : atoi scanf (decimal n).toList = n := by
  have separated : Separated [] := by
    intro c head
    cases head
  have read : scanNumeral ((decimal n).toList ++ []) = (some n.toInt, []) :=
    scanNumeral_numeral (List.forall_mem_nil _) n.toInt separated
  rw [List.append_nil] at read
  rw [atoi, scanInt, read]
  exact scanf.stores n

end Lines

/-- **What is typed stands for what it should**: an order, a file of keys and a list of
instructions, each number in decimal and each key and instruction in a line of its own. -/
theorem mainText_lines (heap : Malloc) (scanf : Scanf) (room : Nat) (v : Scanned) (argument : Option Int32)
    {keys : Option (List Key)} (some_ : keys ≠ some []) (is : List Instruction) (r : Session × List Output) :
    Returns (fun fuel => mainText heap scanf room v (argument.map fun n => (decimal n).toList)
        (keys.map fileLines) (lines is) fuel) r ↔
      Returns (fun fuel => main heap room argument keys is fuel) r := by
  obtain ⟨w, loaded⟩ := loaded_lines scanf v some_
  rw [mainText_main loaded (typed_lines scanf w is), Option.map_map]
  have same : (atoi scanf ∘ fun n => (decimal n).toList) = id := funext (atoi_decimal scanf)
  rw [same, Option.map_id, id]

theorem mainText_lines_sample :
    Returns (fun fuel => mainText .bump .wrapping 0 ⟨0, 0⟩ (some ['5']) none ['t', '\n', 'v', '\n'] fuel)
      (⟨null, true, .empty⟩, [[], ["Empty tree.\n"], []]) :=
  (mainText_lines .bump .wrapping 0 ⟨0, 0⟩ (some 5) (show (none : Option (List Key)) ≠ some [] by decide)
    [.tree, .verbose] _).mpr (.of_forall fun _ => rfl)

/-! ## Where the program hangs -/

/-- The text breaks off in a line, and does not quit. -/
def Unended (text : List Char) : Prop := text ≠ [] ∧ text.getLast? ≠ some '\n' ∧ 'q' ∉ text

section Hangs

variable {scanf : Scanf}

theorem getLast?_of_suffix {c : Char} {text rest : List Char} (suffix : rest <:+ text)
    (last : rest.getLast? = some c) : text.getLast? = some c := by
  obtain ⟨before, rfl⟩ := suffix
  rw [List.getLast?_append, last]
  rfl

/-- A text that stands for something ends with a line, if it does not quit. -/
theorem Typed.ended {v : Scanned} {text : List Char} {is : List Instruction} (typed : Typed scanf v text is)
    (goesOn : 'q' ∉ text) : text = [] ∨ text.getLast? = some '\n' := by
  induction typed with
  | eof v => exact .inl rfl
  | quit v ended => exact absurd List.mem_cons_self goesOn
  | @line v w c text left rest i is other scan ended later ih =>
      have suffix := scanInstruction_suffix scanf v c text
      rw [scan] at suffix
      have behind : '\n' :: rest <:+ c :: text :=
        (behindLine_suffix ended).trans (suffix.trans (List.suffix_cons c text))
      refine .inr (getLast?_of_suffix behind ?_)
      rcases ih fun quits => goesOn (behind.subset (List.mem_cons_of_mem _ quits)) with rfl | last
      · rfl
      · exact getLast?_of_suffix (List.suffix_cons _ _) last

theorem scanKey_stray (scanf : Scanf) (input : Key) {c : Char} {text : List Char} (stray : Stray c) (there : c ∈ text) :
    c ∈ (scanKey scanf input text).2 := by
  have left := scanNumeral_stray stray there
  rcases shape : scanNumeral text with ⟨n, rest⟩
  rw [shape] at left
  rw [scanKey, shape]
  cases n with
  | none => exact left
  | some n => exact mem_skipSpaces stray left

/-- A file that stands for something has nothing but numbers in it. -/
theorem InFile.numbers {c : Char} {input final : Key} {text : List Char} {keys : List Key}
    (inFile : InFile scanf input text keys final) (there : c ∈ text) : ¬ Stray c := by
  intro stray
  induction inFile with
  | @last input key text scan =>
      have left := scanKey_stray scanf input stray there
      rw [scan] at left
      cases left
  | @more input key final text rest keys scan _ _ ih =>
      have left := scanKey_stray scanf input stray there
      rw [scan] at left
      exact ih left

end Hangs

/-- **Where the program hangs**: on a text that breaks off in a line, where it waits for the
line break, and on a file with something in it that is no number, which it tries to read again
and again. -/
theorem mainText_hangs (heap : Malloc) (scanf : Scanf) (room : Nat) (v : Scanned) (argument : Option (List Char))
    {file : Option (List Char)} {text : List Char}
    (hangs : Unended text ∨ ∃ t ∈ file, ∃ c ∈ t, Stray c) (r : Session × List Output) :
    ¬ Returns (fun fuel => mainText heap scanf room v argument file text fuel) r := by
  rintro ⟨enough, run⟩
  obtain ⟨keys, w, is, loaded, typed⟩ := read_of_mainText (run enough (Nat.le_refl enough))
  rcases hangs with ⟨some_, unended, goesOn⟩ | ⟨t, given, c, there, stray⟩
  · exact (typed.ended goesOn).elim some_ unended
  · cases loaded with
    | none => cases given
    | some inFile =>
        cases given
        exact inFile.numbers there stray

theorem mainText_hangs_sample :
    ¬ Returns (fun fuel => mainText .bump .wrapping 0 ⟨0, 0⟩ none none ['t'] fuel)
      (Session.start, [[], ["Empty tree.\n"]]) :=
  mainText_hangs .bump .wrapping 0 ⟨0, 0⟩ none (.inl ⟨by decide, by decide, by decide⟩) _

end SimpleDatabase.InMemory
