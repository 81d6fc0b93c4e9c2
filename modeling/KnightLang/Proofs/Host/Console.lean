/-
Lines on a byte stream. A text is made of lines, which end at a newline with or without a carriage
return before it; the last one may lack its end. A console whose input is the UTF-8 of such a text
reads these lines one by one and nothing behind them (`Console.readLine_mirrored`). So a program does
the same on it as on a scripted host that has the lines in a list (`Console.runs_as_scripted`),
provided that the commands that it runs print what the scripted host has for them, and leave the
stream alone.
-/
import KnightLang.Host.Console
import KnightLang.Proofs.Machine.Hosts
import KnightLang.Proofs.Source.Rendering
import KnightLang.Proofs.Text.Order

namespace KnightLang

open EvalM

/-! ## Bytes of a text -/

namespace Text

/-- The UTF-8 of a text. -/
def encode (s : String) : List UInt8 := s.toUTF8.data.toList

theorem decode?_encode (s : String) : decode? (encode s) = some s := by
  unfold decode? encode
  rw [Array.toArray_toList, String.toUTF8_eq_toByteArray]
  unfold String.fromUTF8?
  rw [dif_pos s.isValidUTF8]
  rfl

theorem encode_ne_nil {s : String} (h : s ≠ "") : encode s ≠ [] := by
  intro hs
  have decoded := decode?_encode s
  rw [hs] at decoded
  exact h (Option.some.inj (decoded.symm.trans (decode?_encode "")))

theorem encode_append (s t : String) : encode (s ++ t) = encode s ++ encode t := by
  simp [encode, String.toUTF8_eq_toByteArray]

theorem encode_eq_flatMap (s : String) : encode s = s.toList.flatMap String.utf8EncodeChar := by
  unfold encode
  rw [String.toUTF8_eq_toByteArray]
  exact bytes_eq_flatMap s

theorem eq_ofNat_iff {k : Nat} : 10 = UInt8.ofNat k ↔ k % 256 = 10 := by
  rw [← UInt8.toNat_inj, UInt8.toNat_ofNat']
  exact eq_comm

/-- The byte of a newline is part of no other character. -/
theorem newline_mem_encodeChar {c : Char} : 10 ∈ String.utf8EncodeChar c ↔ c = '\n' := by
  have newline : c = '\n' ↔ c.val.toNat = 10 := by
    rw [← Char.toNat_inj]
    rfl
  rw [newline]
  unfold String.utf8EncodeChar
  dsimp only
  split
  · simp only [List.mem_singleton, eq_ofNat_iff]
    omega
  · -- All bytes of longer characters are 128 or more.
    split
    · simp only [List.mem_cons, List.not_mem_nil, or_false, eq_ofNat_iff]
      omega
    · split <;>
      · simp only [List.mem_cons, List.not_mem_nil, or_false, eq_ofNat_iff]
        omega

theorem newline_mem_encode {s : String} : 10 ∈ encode s ↔ '\n' ∈ s.toList := by
  simp [encode_eq_flatMap, newline_mem_encodeChar]

/-! ## Lines of a text -/

/-- A text is made of lines without newlines. Each of them ends at a newline or at a carriage return
and a newline, and does not end in a carriage return itself; but the last one, if it is not empty,
may lack its end, and is free to end in a carriage return then. -/
inductive Lines : String → List String → Prop
  | none : Lines "" []
  | last {line : String} : '\n' ∉ line.toList → line ≠ "" → Lines line [line]
  | ended {line ending text : String} {lines : List String} : '\n' ∉ line.toList →
      line.back? ≠ some '\r' → ending = "\n" ∨ ending = "\r\n" → Lines text lines →
      Lines (line ++ ending ++ text) (line :: lines)

end Text

namespace Console

theorem trimReturn_of_back? {line : String} (h : line.back? ≠ some '\r') :
    trimReturn line = line := by
  unfold trimReturn Text.dropLast?
  rw [if_neg h]
  rfl

theorem trimReturn_append (line : String) : trimReturn (line ++ "\r") = line := by
  have last : (line ++ "\r").back? = some '\r' := by
    rw [String.back?_eq, String.toList_append]
    simp
  unfold trimReturn Text.dropLast?
  rw [if_pos last, Option.getD_some]
  refine String.toList_inj.1 ?_
  rw [← String.dropEnd_toSlice, String.Slice.toList_copy_dropEnd, String.copy_toSlice]
  simp

/-! ## Reading lines -/

variable {c : Console} {line text : String}

theorem decodeLine_encode (line : String) : decodeLine (Text.encode line) = .ok line := by
  unfold decodeLine
  rw [Text.decode?_encode]

theorem readLine_end (h : c.input = []) : c.readLine = (.ok none, c) := by
  unfold readLine
  rw [h]

/-- No byte of a line is a newline. -/
theorem forall_ne_newline (h : '\n' ∉ line.toList) :
    ∀ b ∈ Text.encode line, (b != 10) = true := by
  intro b hb
  rw [bne_iff_ne]
  rintro rfl
  exact h (Text.newline_mem_encode.1 hb)

/-- A line without an end is taken as it is. -/
theorem readLine_last (hline : '\n' ∉ line.toList) (hne : line ≠ "")
    (h : c.input = Text.encode line) :
    c.readLine = (.ok (some line), { c with input := [], taken := 0 }) := by
  have bytes := forall_ne_newline hline
  obtain ⟨b, bs, hbs⟩ := List.exists_cons_of_ne_nil (Text.encode_ne_nil hne)
  unfold readLine
  rw [h, hbs]
  dsimp only
  rw [← hbs, List.takeWhile_eq_self_iff.2 bytes, List.dropWhile_eq_nil_iff.2 bytes,
    decodeLine_encode]
  rfl

/-- A line is taken up to the newline, without a carriage return at its end. -/
theorem readLine_ended {rest : List UInt8} (hline : '\n' ∉ line.toList)
    (h : c.input = Text.encode line ++ 10 :: rest) :
    c.readLine = (.ok (some (trimReturn line)),
      { c with input := rest, taken := takenAfter c.taken ((Text.encode line).length + 1) }) := by
  have bytes := forall_ne_newline hline
  have taken : c.input.takeWhile (· != 10) = Text.encode line := by
    rw [h, List.takeWhile_append_of_pos bytes]
    simp
  have left : c.input.dropWhile (· != 10) = 10 :: rest := by
    rw [h, List.dropWhile_append_of_pos bytes]
    simp
  have hne : c.input ≠ [] := by simp [h]
  obtain ⟨b, bs, hbs⟩ := List.exists_cons_of_ne_nil hne
  rw [hbs] at taken left
  unfold readLine
  rw [hbs]
  dsimp only
  rw [taken, left, decodeLine_encode]
  rfl

end Console

/-! ## A console and a scripted host -/

/-- A command prints a text, whatever the files and the input are, and leaves the input as it is. -/
def CommandShell.Prints (shell : CommandShell) (command printed : String) : Prop :=
  ∀ files input, ∃ result, shell files input command = .ok result ∧
    Text.decodeLossy result.printed = printed ∧ result.input = input

namespace Console

/-- A scripted host has the lines of a console's input in a list. Both have written the same, and
the commands and the shell are the given ones. -/
structure Mirrors (commands : List (String × String)) (shell : CommandShell) (s : Scripted)
    (c : Console) : Prop where
  input : ∃ text, Text.Lines text s.input ∧ c.input = Text.encode text
  output : c.output = s.output
  commands : s.commands = commands
  shell : c.shell = shell

variable {commands : List (String × String)} {shell : CommandShell} {s : Scripted} {c : Console}

theorem readLine_mirrored (h : Mirrors commands shell s c) :
    (Host.readLine c).1 = (Host.readLine s).1 ∧
      Mirrors commands shell (Host.readLine s).2 (Host.readLine c).2 := by
  obtain ⟨⟨text, hlines, hinput⟩, houtput, hcommands, hshell⟩ := h
  obtain ⟨lines, output, commands⟩ := s
  show c.readLine.1 = _ ∧ Mirrors _ _ _ c.readLine.2
  cases hlines with
  | none =>
    rw [readLine_end hinput]
    exact ⟨rfl, ⟨"", .none, hinput⟩, houtput, hcommands, hshell⟩
  | last hline hne =>
    rw [readLine_last hline hne hinput]
    exact ⟨rfl, ⟨"", .none, rfl⟩, houtput, hcommands, hshell⟩
  | @ended line ending text lines hline hback hending hlines =>
    -- Up to the newline there is the line, or the line and a carriage return.
    have bytes : ∃ raw, '\n' ∉ raw.toList ∧ trimReturn raw = line ∧
        c.input = Text.encode raw ++ 10 :: Text.encode text := by
      rcases hending with rfl | rfl
      · refine ⟨line, hline, trimReturn_of_back? hback, ?_⟩
        rw [hinput, Text.encode_append, Text.encode_append, List.append_assoc]
        rfl
      · refine ⟨line ++ "\r", by simp [hline], trimReturn_append line, ?_⟩
        rw [hinput, Text.encode_append, Text.encode_append, Text.encode_append, List.append_assoc,
          List.append_assoc]
        rfl
    obtain ⟨raw, hraw, rfl, hbytes⟩ := bytes
    rw [readLine_ended hraw hbytes]
    exact ⟨rfl, ⟨text, hlines, rfl⟩, houtput, hcommands, hshell⟩

theorem shell_mirrored {command : String}
    (hprints : shell.Prints command ((commands.lookup command).getD ""))
    (h : Mirrors commands shell s c) :
    (Host.shell command c).1 = (Host.shell command s).1 ∧
      Mirrors commands shell (Host.shell command s).2 (Host.shell command c).2 := by
  obtain ⟨⟨text, hlines, hinput⟩, houtput, rfl, rfl⟩ := h
  obtain ⟨result, hresult, hprinted, hleft⟩ := hprints c.files (c.input.drop c.taken)
  show (c.runShell command).1 = _ ∧ Mirrors _ _ _ (c.runShell command).2
  unfold runShell
  rw [hresult]
  refine ⟨congrArg Except.ok hprinted, ⟨text, hlines, ?_⟩, houtput, rfl, rfl⟩
  show c.input.take c.taken ++ result.input = _
  rw [hleft, List.take_append_drop, hinput]

/-- A console answers as the scripted host does, if commands print what that has for them. -/
theorem mirrors (commands : List (String × String)) (shell : CommandShell) :
    Host.Mirrors (Mirrors commands shell)
      fun command => shell.Prints command ((commands.lookup command).getD "") where
  readLine := readLine_mirrored
  write {s c} text h := by
    refine ⟨rfl, h.input, ?_, h.commands, h.shell⟩
    show c.output ++ text = s.output ++ text
    rw [h.output]
  shell := shell_mirrored

/-! ## Programs on a console -/

variable {β ν : Type} [Bindings β ν]

/-- The two hosts agree. The input of a console is the UTF-8 of a text; a scripted host has its
lines, and what it has for each command that the program runs is what this command prints on the
console, without touching the input. Then a program comes to the same value or the same halt on
both, or ends on neither; it leaves the same variables and draws, has written the same, and leaves
the same lines to be read. -/
theorem runs_as_scripted {text source : String} {lines : List String} {b : β} {d : Draws}
    {c : Console} (hlines : Text.Lines text lines) (hinput : c.input = Text.encode text)
    (hcommands : ∀ command,
      (Activity.run source).Issues (⟨b, ⟨lines, c.output, commands⟩, d⟩ : Machine β Scripted) command →
        c.shell.Prints command ((commands.lookup command).getD "")) :
    let m : Machine β Scripted := ⟨b, ⟨lines, c.output, commands⟩, d⟩
    let m' : Machine β Console := ⟨b, c, d⟩
    (∀ out, out ≠ .unfinished → (∃ n, (Term.runSource n source).run m = out) →
        ∃ out', out.Mirrored (Mirrors commands c.shell) out' ∧
          ∃ n, (Term.runSource n source).run m' = out') ∧
      ∀ out', out' ≠ .unfinished → (∃ n, (Term.runSource n source).run m' = out') →
        ∃ out, out.Mirrored (Mirrors commands c.shell) out' ∧
          ∃ n, (Term.runSource n source).run m = out := by
  intro m m'
  have start : m.OnHosts (Mirrors commands c.shell) m' :=
    ⟨rfl, rfl, ⟨text, hlines, hinput⟩, rfl, rfl, rfl⟩
  exact Activity.within_mirrored (mirrors commands c.shell) hcommands start

/-- A program that reads a line more than there are, writes them one after the other and runs a
command. The input has a line with a carriage return, an empty one and one without an end. -/
theorem prompts_as_scripted :
    let source := "; D + P + P + P P ` 'echo hi'"
    let text := "one" ++ "\r\n" ++ ("" ++ "\n" ++ "two\r")
    let lines := ["one", "", "two\r"]
    let commands := [("echo hi", "hi\n")]
    let shell : CommandShell := fun files input command =>
      .ok ⟨Text.encode ((commands.lookup command).getD ""), [], 0, files, input⟩
    let c : Console := { input := Text.encode text, shell }
    let s : Scripted := { input := lines, commands }
    let d := Draws.seeded 0
    let hi : Term String := .lit (.text "hi\n")
    Text.Lines text lines ∧
      (Term.runSource 9 source).run (⟨∅, s, d⟩ : Machine Store Scripted) =
        .value hi ⟨∅, ⟨[], "String(onetwo\r)\n", commands⟩, d⟩ ∧
      ∃ n c', (Term.runSource n source).run (⟨∅, c, d⟩ : Machine Store Console) =
        .value hi ⟨∅, c', d⟩ ∧ c'.output = "String(onetwo\r)\n" ∧ c'.input = [] := by
  intro source text lines commands shell c s d hi
  have third : Text.Lines "two\r" ["two\r"] := .last (by simp) (by simp)
  have second : Text.Lines ("" ++ "\n" ++ "two\r") ["", "two\r"] :=
    .ended (by simp) (by simp [String.back?_eq]) (.inl rfl) third
  have split : Text.Lines text lines :=
    .ended (by simp) (by simp [String.back?_eq]) (.inr rfl) second
  let P : Term String := .nullary .prompt
  let add (a b : Term String) : Term String := .binary (.arith .add) a b
  let shown : Term String := .unary .dump (add P (add P (add P P)))
  let ran : Term String := .unary .shell (.lit (.text "echo hi"))
  have parsed : parse source = ⟨.ok (.binary .seq shown ran), []⟩ :=
    Source.parse_eq_of_ok (by decide +kernel)
  have run : (Term.runSource 9 source).run (⟨∅, s, d⟩ : Machine Store Scripted) =
      .value hi ⟨∅, ⟨[], "String(onetwo\r)\n", commands⟩, d⟩ := by
    show (Machine.load source >>= Term.eval 9).run _ = _
    rw [run_bind, Source.load_of_parse parsed]
    rfl
  have prints : ∀ command, shell.Prints command ((commands.lookup command).getD "") := by
    intro command files input
    refine ⟨_, rfl, ?_, rfl⟩
    show Text.decodeLossy (Text.encode ((commands.lookup command).getD "")) = _
    by_cases h : command = "echo hi"
    · rw [h]
      decide +kernel
    · have unknown : commands.lookup command = none := by simp [commands, h]
      rw [unknown]
      rfl
  have both := (runs_as_scripted (c := c) split rfl fun command _ => prints command).1 _
    (by simp) ⟨9, run⟩
  refine ⟨split, run, ?_⟩
  obtain ⟨out', halike, n, hn⟩ := both
  refine ⟨n, ?_⟩
  cases out' with
  | value v m' =>
    obtain ⟨b', c', d'⟩ := m'
    obtain ⟨rfl, hbindings, hdraws, ⟨rest, hlines, hrest⟩, houtput, -, -⟩ := halike
    cases hbindings
    cases hdraws
    cases hlines
    exact ⟨c', hn, houtput, hrest⟩
  | halted | unfinished => exact halike.elim

end Console

end KnightLang
