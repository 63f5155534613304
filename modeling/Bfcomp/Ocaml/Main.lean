import Bfcomp.Ocaml.Pipeline
import Bfcomp.Ocaml.Scan

/-! # The OCaml program (`bin/main.ml`)

It reads its source line by line and puts the lines together without their newlines, which are
comments; then it parses, optimises and runs what it has. Without an argument it runs a program of its
own. -/

namespace Bfcomp.Ocaml
set_option autoImplicit false

open Pass

def newline : Byte := 10

/-- `input_line`: the rest of the line and what follows its newline, or nothing for `End_of_file`. -/
def inputLine : List Byte → Option (List Byte × List Byte)
  | [] => none
  | c :: content =>
    some ((c :: content).takeWhile (· ≠ newline), ((c :: content).dropWhile (· ≠ newline)).drop 1)

/-- The lines that the stream yields, added to the buffer. -/
def bufferLines : ℕ → List Byte → List Byte → List Byte
  | 0, buf, _ => buf
  | fuel + 1, buf, content =>
    match inputLine content with
    | none => buf
    | some (line, content) => bufferLines fuel (buf ++ line) content

/-- `string_of_in_channel`. -/
def stringOfInChannel (content : List Byte) : List Byte := bufferLines (content.length + 1) [] content

def helloWord : MlString where
  bytes := ("+[>[<->+[>+++>[+++++++++++>][]-[<]>-]]++++++++++<]>>>>>>----.<<+++.<-..+++.<-.>>>.<<" ++
    "+++.------.>-.<<+.<.<").toList.map ascii
  fits := by decide

/-! ## Lines -/

theorem inputLine_length {content line rest : List Byte}
    (h : inputLine content = some (line, rest)) : rest.length < content.length := by
  cases content with
  | nil => cases h
  | cons c content =>
    have hdrop := (List.dropWhile_suffix (· ≠ newline) (l := c :: content)).length_le
    cases h
    rw [List.length_drop]
    rw [List.length_cons] at hdrop ⊢
    omega

/-- A line and what follows it are the content without the newline between them. -/
theorem inputLine_filter {content line rest : List Byte}
    (h : inputLine content = some (line, rest)) :
    content.filter (· ≠ newline) = line ++ rest.filter (· ≠ newline) := by
  cases content with
  | nil => cases h
  | cons c content =>
    cases h
    have hline : ((c :: content).takeWhile (· ≠ newline)).filter (· ≠ newline) =
        (c :: content).takeWhile (· ≠ newline) := by
      refine List.filter_eq_self.mpr fun b hb => ?_
      simpa using List.mem_takeWhile_imp hb
    have hrest : ((c :: content).dropWhile (· ≠ newline)).filter (· ≠ newline) =
        (((c :: content).dropWhile (· ≠ newline)).drop 1).filter (· ≠ newline) := by
      cases hd : (c :: content).dropWhile (· ≠ newline) with
      | nil => rfl
      | cons b rest =>
        have hb : b = newline := by
          have hhead := List.head?_dropWhile_not (· ≠ newline) (c :: content)
          rw [hd] at hhead
          simpa using hhead
        rw [List.filter_cons_of_neg (by simp [hb]), List.drop_one, List.tail_cons]
    rw [← hrest, ← hline, ← List.filter_append, List.takeWhile_append_dropWhile]

theorem bufferLines_eq {fuel : ℕ} {content : List Byte} (hfuel : content.length < fuel)
    (buf : List Byte) : bufferLines fuel buf content = buf ++ content.filter (· ≠ newline) := by
  induction fuel generalizing buf content with
  | zero => cases hfuel
  | succ fuel ih =>
    rw [bufferLines]
    cases hline : inputLine content with
    | none =>
      cases content with
      | nil => exact (List.append_nil _).symm
      | cons c content => cases hline
    | some r =>
      have hlen := inputLine_length hline
      simp only
      rw [ih (by omega), inputLine_filter hline, List.append_assoc]

theorem stringOfInChannel_eq (content : List Byte) :
    stringOfInChannel content = content.filter (· ≠ newline) :=
  bufferLines_eq (Nat.lt_succ_self _) []

/-- The string that `main` makes of its source file. -/
def MlString.ofChannel (content : MlString) : MlString where
  bytes := stringOfInChannel content.bytes
  fits := by
    rw [stringOfInChannel_eq]
    exact (List.length_filter_le _ _).trans content.fits

/-- `main`. `file`: the content of the file that the first argument names, if there is one. -/
def main (n : ℕ) (file : Option MlString) (input : List Byte) : Outcome Exn Store :=
  let text := match file with
    | some content => content.ofChannel
    | none => helloWord
  Interpreter.run n (Pass.run [contraction, deadCode, zeroLoop] (Parser.parse text)) input

/-! ## Newlines are comments -/

theorem Tree.ofChannel {w : List Byte} {p : List Ir} (h : Tree w p) :
    Tree (w.filter (· ≠ newline)) p := by
  induction h with
  | nil => exact .nil
  | @unit c i w p hi _ ih =>
    have hc : c ≠ newline := by
      rintro rfl
      cases hi
    rw [List.filter_cons_of_pos (by simpa using hc)]
    exact .unit hi ih
  | @skip c w p ho hc hi _ ih =>
    by_cases hn : c = newline
    · rw [List.filter_cons_of_neg (by simpa using hn)]
      exact ih
    · rw [List.filter_cons_of_pos (by simpa using hn)]
      exact .skip ho hc hi ih
  | @loop w v b p _ _ ihw ihv =>
    rw [List.filter_append, List.filter_cons_of_pos (by decide), List.filter_cons_of_pos (by decide)]
    exact .loop ihw ihv

/-- The newlines that `string_of_in_channel` drops do not change a balanced program. -/
theorem parse_ofChannel (content : MlString) (hbal : Balanced content.bytes) :
    Parser.parse content.ofChannel = Parser.parse content := by
  obtain ⟨p, htree⟩ := (tree_of_openAfter content.bytes).2 hbal
  have hstripped : Tree content.ofChannel.bytes p := by
    have hbytes : content.ofChannel.bytes = content.bytes.filter (· ≠ newline) :=
      stringOfInChannel_eq content.bytes
    rw [hbytes]
    exact htree.ofChannel
  rw [hstripped.parse, htree.parse]

/-- What the unoptimised program does, `main` does, if no loop that is entered stands right before
another one. -/
theorem main_keeps (content : MlString) (hbal : Balanced content.bytes) {input : List Byte} {n : ℕ}
    {t : Store} (hguard : Guarded n (Parser.parse content) (.start input))
    (hrun : Interpreter.run n (Parser.parse content) input = .done t) :
    main n (some content) input = .done t := by
  have hw := weight_parse content
  have hfits := content.fits
  simp only [main, parse_ofChannel content hbal]
  exact passes_keep (by omega) hrun hguard

end Bfcomp.Ocaml
