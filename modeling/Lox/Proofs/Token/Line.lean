import Lox.Proofs.Token.Scanning
import Lox.Proofs.Token.Word

namespace Lox

open Lexeme Text

variable {source front cs : List Char} {c : Char}

/-- The line breaks among the first bytes of a source. -/
def breaksBefore (source : List Char) (n : Nat) : Nat :=
  ((utf8 source).take n).count '\n'.toUInt8

/-- A byte is a line break just as its character is. -/
theorem ofUInt8_beq_newline (b : UInt8) : (Char.ofUInt8 b == '\n') = (b == '\n'.toUInt8) := by
  rw [Bool.eq_iff_iff, beq_iff_eq, beq_iff_eq]
  refine ⟨fun h => UInt8.toNat_inj.mp ?_, fun h => h ▸ rfl⟩
  have hval := congrArg (fun d : Char => d.val.toNat) h
  rwa [val_ofUInt8, UInt8.toNat_toUInt32] at hval

/-- The line breaks before a place are those of the text in front of it. -/
theorem breaksBefore_append (front behind : List Char) :
    breaksBefore (front ++ behind) (byteLength front) = front.count '\n' := by
  have hcount := @countP_utf8 (· == '\n')
    (fun d hd => beq_false_of_ne (wide_ne hd (by decide))) front
  simp only [ofUInt8_beq_newline] at hcount
  rw [breaksBefore, utf8_append, ← length_utf8, List.take_left]
  exact hcount

/-- The item has its text between these bytes of the source, and is on the line that the line breaks
    in front of the end of a token, or of the start of an error, give. -/
def Item.OnLine (source : List Char) (start stop : Nat) (text : List Char) : Item → Prop
  | .ok t =>
    t.offset = start ∧ t.lexeme.toList = text ∧ t.line = 1 + breaksBefore source stop
  | .error ⟨line, .unexpectedCharacter c⟩ => text = [c] ∧ line = 1 + breaksBefore source start
  | .error ⟨line, .unterminatedString⟩ =>
    (∃ contents, text = '"' :: contents ∧ '"' ∉ contents) ∧ stop = byteLength source ∧
      line = 1 + breaksBefore source start

/-- A lexeme behind some text is on the line where it ends, and an error where it starts. -/
theorem onLine_read (h : source = front ++ ((read c cs).text ++ (read c cs).ahead)) :
    ((read c cs).item (Position.past ⟨1, 0⟩ front)).OnLine source (byteLength front)
      (byteLength front + byteLength (read c cs).text) (read c cs).text := by
  have hstart : breaksBefore source (byteLength front) = front.count '\n' := by
    rw [h, breaksBefore_append]
  have hstop : breaksBefore source (byteLength front + byteLength (read c cs).text) =
      front.count '\n' + (read c cs).text.count '\n' := by
    rw [h, ← List.append_assoc, ← byteLength_append, breaksBefore_append, List.count_append]
  unfold Reading.item
  rcases read_cases c cs with ⟨kind, hcontent, -⟩ | ⟨rfl, hcs, hread⟩ | ⟨-, hread⟩
  · rw [hcontent]
    refine ⟨Nat.zero_add _, String.toList_ofList, ?_⟩
    rw [hstop, ← Nat.add_assoc]
    rfl
  · rw [hread] at h ⊢
    refine ⟨⟨cs, rfl, hcs⟩, ?_, congrArg (1 + ·) hstart.symm⟩
    rw [h, List.append_nil, byteLength_append]
  · rw [hread]
    exact ⟨rfl, congrArg (1 + ·) hstart.symm⟩

namespace Reader.Cuts

variable {position : Position} {segments before after : List Segment} {s : Segment}

/-- Every segment is read behind the segments before it. -/
theorem exists_read (h : Cuts position cs segments) (heq : segments = before ++ s :: after) :
    ∃ c rest, s.text = (read c rest).text ∧
      s.item = (read c rest).item (position.past (before.flatMap Segment.whole ++ s.trivia)) ∧
      cs = before.flatMap Segment.whole ++ s.trivia ++
        ((read c rest).text ++ (read c rest).ahead) := by
  induction h generalizing before with
  | finish => simp at heq
  | @item position cs trivia rest c segments htrivia hrest ih =>
    have happend := append_of_splitTrivia_cons htrivia
    cases before with
    | nil =>
      obtain ⟨rfl, rfl⟩ := List.cons.inj heq
      exact ⟨c, rest, rfl, rfl, happend.symm⟩
    | cons s' before =>
      obtain ⟨rfl, htail⟩ := List.cons.inj heq
      obtain ⟨c', rest', htext, hitem, hahead⟩ := ih htail
      refine ⟨c', rest', htext, ?_, ?_⟩
      · rw [hitem, List.flatMap_cons, Segment.whole]
        simp only [Position.past_append, List.append_assoc]
      · rw [← happend, hahead, List.flatMap_cons, Segment.whole]
        simp only [List.append_assoc]

end Reader.Cuts

/-- Each item of a scan is yielded behind its text, and is on the line that counting the line breaks
    of the source gives. The end token counts all of them. -/
theorem lines_exact (source : String) :
    ∃ items last, readItems source = items ++ [.ok last] ∧ last.isEnd ∧
      last.line = 1 + breaksBefore source.toList (byteLength source.toList) ∧
      ∀ before item behind, items = before ++ item :: behind →
        ∃ c text, Cursor.calls? source.toList (before.length + 1) .atStart =
            some ((before ++ [item]).map some, c) ∧
          slice? source.toList c.start c.curr = some text ∧
          item.OnLine source.toList c.start c.curr text := by
  obtain ⟨segments, hcuts⟩ := Reader.exists_cuts ⟨1, 0⟩ source.toList
  have hitems : readItems source = segments.map Segment.item ++ _ :=
    hcuts.items_eq (Nat.lt_succ_self _)
  have hrests : Cursor.atStart.Rests source.toList [] source.toList := ⟨rfl, rfl⟩
  refine ⟨_, _, hitems, rfl, ?_, ?_⟩
  · have hall := breaksBefore_append source.toList []
    rw [List.append_nil] at hall
    rw [hall]
    rfl
  · intro before item behind heq
    obtain ⟨before, rest, rfl, rfl, hrest⟩ := List.map_eq_append_iff.mp heq
    obtain ⟨s, behind, rfl, rfl, rfl⟩ := List.map_eq_cons_iff.mp hrest
    obtain ⟨ahead, cursor, hcalls, hstands⟩ :=
      Cursor.exists_calls?_segment hcuts hrests rfl rfl rfl
    obtain ⟨c, rest, htext, hitem, hsource⟩ := hcuts.exists_read rfl
    refine ⟨cursor, s.text, ?_, hstands.slice?_eq, ?_⟩
    · rw [List.length_map, hcalls]
      simp
    · rw [hstands.curr_eq, hstands.start_eq, List.nil_append, hitem, htext]
      exact onLine_read hsource

/-- A character that starts no token and a comment, a string over two lines, and a string that
    nothing ends. -/
def brokenScan : String :=
  "é // \"\n" ++ "\"a\nb\"\n" ++ "\"c\n"

/-- An unexpected character, a string over two lines and one that is never closed, each on its
    line. -/
theorem lines_exact_brokenScan :
    readItems brokenScan =
        [.error ⟨1, .unexpectedCharacter 'é'⟩, .ok ⟨.string "a\nb", "\"a\nb\"", 3, 8⟩,
          .error ⟨4, .unterminatedString⟩, .ok (.atEnd 5 17)] ∧
      5 = 1 + breaksBefore brokenScan.toList 17 ∧
      ∀ item ∈ (readItems brokenScan).take 3, ∃ start stop text,
        slice? brokenScan.toList start stop = some text ∧
          item.OnLine brokenScan.toList start stop text := by
  have hitems : readItems brokenScan =
      [.error ⟨1, .unexpectedCharacter 'é'⟩, .ok ⟨.string "a\nb", "\"a\nb\"", 3, 8⟩,
        .error ⟨4, .unterminatedString⟩, .ok (.atEnd 5 17)] := by
    cbv
  have hlength : byteLength brokenScan.toList = 17 := by decide +kernel
  obtain ⟨items, last, hsplit, -, hlast, hlines⟩ := lines_exact brokenScan
  have hends : [_, _, _] ++ [_] = items ++ [.ok last] := hitems.symm.trans hsplit
  obtain ⟨hfront, hend⟩ := List.append_inj' hends rfl
  cases hend
  rw [hlength] at hlast
  refine ⟨hitems, hlast, fun item hitem => ?_⟩
  rw [hitems] at hitem
  obtain ⟨before, behind, hsplit⟩ := List.append_of_mem hitem
  obtain ⟨c, text, -, hslice, hline⟩ := hlines before item behind (hfront.symm.trans hsplit)
  exact ⟨c.start, c.curr, text, hslice, hline⟩

end Lox
