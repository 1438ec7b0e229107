import Mathlib.Data.List.TakeWhile
import PulseFlow.Console

/-!
# What is read is what was there

Keys and lines are taken off one input.  Whatever is asked for, in whatever order, the characters
handed out and those still there are the input as it was, in its order.  A terminal hands out lines
without their ends, so there each line has to be followed by the carriage returns and line feeds
that were taken off it.

    splitLine (utf8 (line ++ rest)) = (utf8 line, utf8 rest)               (splitLine_utf8)
    t.keys ++ rest = line ++ its end ++ (t'.keys ++ rest')                  (readLine_of_utf8)
    transcript readings ends ++ what is left = what was left                (readAll_takes)
-/

namespace PulseFlow

/-! ## Bytes of a text -/

namespace Terminal

/-- The bytes of characters, one character after another. -/
def utf8 (cs : List Char) : List UInt8 := cs.flatMap String.utf8EncodeChar

theorem utf8Encode_eq (cs : List Char) : cs.utf8Encode = ⟨(utf8 cs).toArray⟩ :=
  ByteArray.ext List.data_toByteArray

theorem utf8_toList (s : String) : utf8 s.toList = s.toUTF8.data.toList := by
  have hencode : s.toUTF8 = s.toList.utf8Encode := String.utf8Encode_toList.symm
  rw [hencode, utf8Encode_eq]

theorem fromUTF8?_utf8 (cs : List Char) :
    String.fromUTF8? ⟨(utf8 cs).toArray⟩ = some (String.ofList cs) := by
  rw [← utf8Encode_eq, String.fromUTF8?, dif_pos ByteArray.isValidUTF8_utf8Encode]
  rfl

/-- Only the line feed has the byte of the line feed in it. -/
theorem not_mem_utf8EncodeChar {c : Char} (hc : c ≠ '\n') :
    (10 : UInt8) ∉ String.utf8EncodeChar c := by
  have hbyte : ∀ n, n % 256 ≠ 10 → 10 ≠ UInt8.ofNat n := by
    intro n hn heq
    have hnat := congrArg UInt8.toNat heq
    rw [UInt8.toNat_ofNat'] at hnat
    exact hn hnat.symm
  have hval : c.val.toNat ≠ 10 := fun h => hc (Char.ext (UInt32.toNat_inj.1 h))
  -- one to four bytes; all bytes of a character with more than one are from 128 on
  fun_cases String.utf8EncodeChar c <;>
    simp only [List.mem_cons, List.not_mem_nil, or_false, not_or]
  · exact hbyte _ (by omega)
  · exact ⟨hbyte _ (by omega), hbyte _ (by omega)⟩
  · exact ⟨hbyte _ (by omega), hbyte _ (by omega), hbyte _ (by omega)⟩
  · exact ⟨hbyte _ (by omega), hbyte _ (by omega), hbyte _ (by omega), hbyte _ (by omega)⟩

theorem splitLine_append {bs : List UInt8} (h : 10 ∉ bs) (rest : List UInt8) :
    splitLine (bs ++ rest) = (bs ++ (splitLine rest).1, (splitLine rest).2) := by
  induction bs with
  | nil => rfl
  | cons b bs ih =>
    obtain ⟨hb, hbs⟩ := not_or.1 (mt List.mem_cons.2 h)
    rw [List.cons_append, splitLine, if_neg (Ne.symm hb), ih hbs]
    rfl

/-- Lines are cut between characters. -/
theorem splitLine_utf8 (cs : List Char) : ∃ line rest, cs = line ++ rest ∧
    (line = [] → cs = []) ∧ splitLine (utf8 cs) = (utf8 line, utf8 rest) := by
  induction cs with
  | nil => exact ⟨[], [], rfl, fun _ => rfl, rfl⟩
  | cons c cs ih =>
    by_cases hc : c = '\n'
    · subst hc
      exact ⟨['\n'], cs, rfl, fun h => absurd h (List.cons_ne_nil _ _), rfl⟩
    · obtain ⟨line, rest, rfl, -, hsplit⟩ := ih
      refine ⟨c :: line, rest, rfl, fun h => absurd h (List.cons_ne_nil _ _), ?_⟩
      have hcons (cs : List Char) : utf8 (c :: cs) = String.utf8EncodeChar c ++ utf8 cs :=
        List.flatMap_cons
      rw [hcons, splitLine_append (not_mem_utf8EncodeChar hc), hsplit, hcons]

variable {t : Terminal} {rest : List Char}

theorem nextLine_of_utf8 (h : t.stdin = utf8 rest) :
    (rest = [] ∧ t.nextLine = (.ended, t)) ∨ ∃ c line rest', rest = c :: line ++ rest' ∧
      t.nextLine = (.value (c :: line), { t with stdin := utf8 rest' }) := by
  obtain ⟨line, rest', rfl, hempty, hsplit⟩ := splitLine_utf8 rest
  rw [nextLine, h, hsplit]
  cases line with
  | nil => exact .inl ⟨hempty rfl, rfl⟩
  | cons c line =>
    refine .inr ⟨c, line, rest', rfl, ?_⟩
    obtain ⟨b, bs, hbs⟩ := List.exists_cons_of_ne_nil
      (List.append_ne_nil_of_left_ne_nil String.utf8EncodeChar_ne_nil (utf8 line))
    have hline : utf8 (c :: line) = b :: bs := hbs
    have hread := fromUTF8?_utf8 (c :: line)
    rw [hline] at hread ⊢
    dsimp only
    rw [hread]
    dsimp only
    rw [String.toList_ofList]

/-- Nothing but carriage returns and line feeds. -/
def LineEnd (e : List Char) : Prop := ∀ c ∈ e, c = '\r' ∨ c = '\n'

theorem dropLineEnd_append (cs : List Char) : ∃ e, LineEnd e ∧ cs = dropLineEnd cs ++ e := by
  refine ⟨(cs.reverse.takeWhile fun c => c == '\r' || c == '\n').reverse, fun c hc => ?_, ?_⟩
  · have hend := List.mem_takeWhile_imp (List.mem_reverse.1 hc)
    simpa using hend
  · rw [dropLineEnd, ← List.reverse_append, List.takeWhile_append_dropWhile, List.reverse_reverse]

/-- A key is the next character, as long as there is one. -/
theorem readKey_of_utf8 (h : t.stdin = utf8 rest) :
    (t.keys ++ rest = [] ∧ t.readKey = (.ended, t)) ∨ ∃ c t' rest', t.readKey = (.value c, t') ∧
      t'.stdin = utf8 rest' ∧ t.keys ++ rest = c :: (t'.keys ++ rest') := by
  cases hkeys : t.keys with
  | cons c cs =>
    refine .inr ⟨c, { t with keys := cs }, rest, ?_, h, rfl⟩
    rw [readKey, hkeys]
  | nil =>
    obtain ⟨rfl, hnext⟩ | ⟨c, line, rest', rfl, hnext⟩ := nextLine_of_utf8 h
    · refine .inl ⟨rfl, ?_⟩
      rw [readKey, hkeys, hnext]
    · refine .inr ⟨c, { t with stdin := utf8 rest', keys := line }, rest', ?_, rfl, rfl⟩
      rw [readKey, hkeys, hnext]

/-- A line is what is next, up to its end, as long as there is anything. -/
theorem readLine_of_utf8 (h : t.stdin = utf8 rest) :
    (t.keys ++ rest = [] ∧ t.readLine = (.ended, t)) ∨ t.keys ++ rest ≠ [] ∧ ∃ l e t' rest',
      t.readLine = (.value l, t') ∧ LineEnd e ∧ t'.stdin = utf8 rest' ∧
        t.keys ++ rest = l.toList ++ e ++ (t'.keys ++ rest') := by
  by_cases hkeys : t.keys = []
  · rw [readLine, if_pos hkeys]
    obtain ⟨rfl, hnext⟩ | ⟨c, line, rest', rfl, hnext⟩ := nextLine_of_utf8 h
    · refine .inl ⟨by rw [hkeys]; rfl, ?_⟩
      rw [hnext]
    · obtain ⟨e, he, hline⟩ := dropLineEnd_append (c :: line)
      refine .inr ⟨List.append_ne_nil_of_right_ne_nil _ (List.cons_ne_nil _ _),
        String.ofList (dropLineEnd (c :: line)), e, { t with stdin := utf8 rest' }, rest',
        by rw [hnext], he, rfl, ?_⟩
      show t.keys ++ (c :: line ++ rest') = _ ++ e ++ (t.keys ++ rest')
      rw [hkeys, String.toList_ofList, ← hline]
      rfl
  · obtain ⟨e, he, hline⟩ := dropLineEnd_append t.keys
    refine .inr ⟨List.append_ne_nil_of_left_ne_nil hkeys rest,
      String.ofList (dropLineEnd t.keys), e, { t with keys := [] }, rest, ?_, he, h, ?_⟩
    · rw [readLine, if_neg hkeys]
    · rw [String.toList_ofList, ← hline]
      rfl

theorem readKey_eq_head? (h : t.stdin = utf8 rest) :
    t.readKey.1 = Console.ofOption (t.keys ++ rest).head? := by
  obtain ⟨hnil, hread⟩ | ⟨c, t', rest', hread, -, hcons⟩ := readKey_of_utf8 h
  · rw [hread, hnil]
    rfl
  · rw [hread, hcons]
    rfl

theorem readLine_eq_none_iff (h : t.stdin = utf8 rest) :
    t.readLine.1.get? = none ↔ t.keys ++ rest = [] := by
  obtain ⟨hnil, hread⟩ | ⟨hne, l, e, t', rest', hread, -⟩ := readLine_of_utf8 h
  · rw [hread]
    exact iff_of_true rfl hnil
  · rw [hread]
    exact iff_of_false (Option.some_ne_none l) hne

end Terminal

/-! ## Scripts -/

namespace Script

/-- All characters of the lines. -/
def left (s : Script) : List Char := s.lines.flatMap String.toList

theorem takeKey_cases (lines : List String) :
    (lines.flatMap String.toList = [] ∧ (takeKey lines).1 = none ∧ (takeKey lines).2 = []) ∨
      ∃ c, (takeKey lines).1 = some c ∧
        lines.flatMap String.toList = c :: (takeKey lines).2.flatMap String.toList := by
  induction lines with
  | nil => exact .inl ⟨rfl, rfl, rfl⟩
  | cons line lines ih =>
    rw [takeKey, List.flatMap_cons]
    cases hline : line.toList with
    | nil => exact ih
    | cons c cs =>
      cases cs with
      | nil => exact .inr ⟨c, rfl, rfl⟩
      | cons d ds =>
        refine .inr ⟨c, rfl, ?_⟩
        show _ = c :: (String.ofList (d :: ds) :: lines).flatMap String.toList
        rw [List.flatMap_cons, String.toList_ofList]
        rfl

theorem readKey_eq_head? (s : Script) : s.readKey.1 = s.left.head? := by
  show (takeKey s.lines).1 = (s.lines.flatMap String.toList).head?
  obtain ⟨hnil, hnone, -⟩ | ⟨c, hc, hcons⟩ := takeKey_cases s.lines
  · rw [hnone, hnil]
    rfl
  · rw [hc, hcons]
    rfl

end Script

namespace Console

/-! ## Readings -/

/-- What can be asked for. -/
inductive Request where
  | key
  | line
deriving DecidableEq, Repr

/-- What is given for it. -/
inductive Reading where
  | key (k : Input Char)
  | line (l : Input String)

/-- The characters of a reading. -/
def Reading.text : Reading → List Char
  | key (.value k) => [k]
  | line (.value l) => l.toList
  | _ => []

/-- Whether a line was given. -/
def Reading.isLine : Reading → Bool
  | line (.value _) => true
  | _ => false

def read (c : Console) : Request → Reading × Console
  | .key => (.key c.readKey.1, c.readKey.2)
  | .line => (.line c.readLine.1, c.readLine.2)

/-- What is given for requests, one after another. -/
def readAll (c : Console) : List Request → List Reading × Console
  | [] => ([], c)
  | q :: qs => ((c.read q).1 :: ((c.read q).2.readAll qs).1, ((c.read q).2.readAll qs).2)

/-- The characters of readings in order, with the next of `ends` after each line. -/
def transcript : List Reading → List (List Char) → List Char
  | [], _ => []
  | r :: rs, ends =>
    if r.isLine then r.text ++ ends.headD [] ++ transcript rs ends.tail
    else r.text ++ transcript rs ends

/-- A reading takes its characters off `cs` and leaves `cs'`; a line may take an end of its own. -/
def Takes (End : List Char → Prop) (r : Reading) (cs cs' : List Char) : Prop :=
  (r.isLine = false ∧ cs = r.text ++ cs') ∨
    (r.isLine = true ∧ ∃ e, End e ∧ cs = r.text ++ e ++ cs')

/-- If `L c cs` says that `c` has `cs` left, and each reading takes its characters off what is left,
then so do all readings together. -/
theorem readAll_takes {L : Console → List Char → Prop} {End : List Char → Prop}
    (hread : ∀ c cs, L c cs → ∀ q, ∃ cs', Takes End (c.read q).1 cs cs' ∧ L (c.read q).2 cs')
    {c : Console} {cs : List Char} (h : L c cs) (qs : List Request) :
    ∃ ends cs', ends.length = (c.readAll qs).1.countP Reading.isLine ∧ (∀ e ∈ ends, End e) ∧
      transcript (c.readAll qs).1 ends ++ cs' = cs ∧ L (c.readAll qs).2 cs' := by
  induction qs generalizing c cs with
  | nil => exact ⟨[], cs, rfl, fun e he => absurd he List.not_mem_nil, rfl, h⟩
  | cons q qs ih =>
    obtain ⟨cs₁, htakes, hleft⟩ := hread c cs h q
    obtain ⟨ends, cs', hlen, hends, htext, hleft'⟩ := ih hleft
    rw [readAll]
    dsimp only
    obtain ⟨hline, rfl⟩ | ⟨hline, e, he, rfl⟩ := htakes
    · refine ⟨ends, cs', ?_, hends, ?_, hleft'⟩
      · rw [List.countP_cons_of_neg (by simp [hline]), hlen]
      · rw [transcript, hline, if_neg Bool.false_ne_true, List.append_assoc, htext]
    · refine ⟨e :: ends, cs', ?_, List.forall_mem_cons.2 ⟨he, hends⟩, ?_, hleft'⟩
      · rw [List.countP_cons_of_pos hline, List.length_cons, hlen]
      · rw [transcript, if_pos hline, List.headD_cons, List.tail_cons, List.append_assoc, htext]

/-- Ends of nothing are no ends. -/
theorem transcript_of_nil (rs : List Reading) {ends : List (List Char)} (h : ∀ e ∈ ends, e = []) :
    transcript rs ends = transcript rs [] := by
  induction rs generalizing ends with
  | nil => rfl
  | cons r rs ih =>
    rw [transcript, transcript, ih h]
    cases ends with
    | nil => rfl
    | cons e ends =>
      rw [List.headD_cons, h e List.mem_cons_self, List.tail_cons,
        ih fun e he => h e (List.mem_cons_of_mem _ he)]
      rfl

theorem read_script (s : Script) (q : Request) : ∃ s' : Script,
    Takes (· = []) ((Console.script s).read q).1 s.left s'.left ∧
      ((Console.script s).read q).2 = .script s' := by
  cases q with
  | key =>
    refine ⟨s.readKey.2, .inl ?_, rfl⟩
    show (Reading.key (ofOption (Script.takeKey s.lines).1)).isLine = false ∧
      s.lines.flatMap String.toList = (Reading.key (ofOption (Script.takeKey s.lines).1)).text ++
        (Script.takeKey s.lines).2.flatMap String.toList
    obtain ⟨hnil, hnone, hrest⟩ | ⟨c, hc, hcons⟩ := Script.takeKey_cases s.lines
    · rw [hnone, hnil, hrest]
      exact ⟨rfl, rfl⟩
    · rw [hc, hcons]
      exact ⟨rfl, rfl⟩
  | line =>
    show ∃ s', Takes _ (.line (ofOption s.readLine.1)) s.left s'.left ∧
      Console.script s.readLine.2 = .script s'
    unfold Script.readLine
    cases hlines : s.lines with
    | nil => exact ⟨s, .inl ⟨rfl, rfl⟩, rfl⟩
    | cons line rest =>
      refine ⟨{ s with lines := rest }, .inr ⟨rfl, [], rfl, ?_⟩, rfl⟩
      rw [Script.left, hlines, List.flatMap_cons, List.append_nil]
      rfl

theorem read_terminal {t : Terminal} {rest : List Char} (h : t.stdin = Terminal.utf8 rest)
    (q : Request) : ∃ t' rest',
      Takes Terminal.LineEnd ((Console.terminal t).read q).1 (t.keys ++ rest) (t'.keys ++ rest') ∧
        ((Console.terminal t).read q).2 = .terminal t' ∧ t'.stdin = Terminal.utf8 rest' := by
  cases q with
  | key =>
    show ∃ t' rest', Takes _ (.key t.readKey.1) _ _ ∧
      Console.terminal t.readKey.2 = .terminal t' ∧ _
    obtain ⟨-, hread⟩ | ⟨c, t', rest', hread, hstdin, htext⟩ := Terminal.readKey_of_utf8 h
    · rw [hread]
      exact ⟨t, rest, .inl ⟨rfl, rfl⟩, rfl, h⟩
    · rw [hread]
      exact ⟨t', rest', .inl ⟨rfl, htext⟩, rfl, hstdin⟩
  | line =>
    show ∃ t' rest', Takes _ (.line t.readLine.1) _ _ ∧
      Console.terminal t.readLine.2 = .terminal t' ∧ _
    obtain ⟨-, hread⟩ | ⟨-, l, e, t', rest', hread, he, hstdin, htext⟩ :=
      Terminal.readLine_of_utf8 h
    · rw [hread]
      exact ⟨t, rest, .inl ⟨rfl, rfl⟩, rfl, h⟩
    · rw [hread]
      exact ⟨t', rest', .inr ⟨rfl, e, he, htext⟩, rfl, hstdin⟩

/-- Whatever keys and lines are asked for, a script gives its characters in order and keeps the
others, and a key is the first character left, if there is one.  So it is with a terminal on UTF-8,
where each line given is followed by the end that was taken off it. -/
theorem readAll_conserves :
    (∀ (s : Script) (requests : List Request), ∃ s' : Script,
      ((Console.script s).readAll requests).2 = .script s' ∧
        transcript ((Console.script s).readAll requests).1 [] ++ s'.lines.flatMap String.toList =
          s.lines.flatMap String.toList ∧
        s'.readKey.1 = (s'.lines.flatMap String.toList).head?) ∧
    ∀ (input : String) (keys : List Char) (writes : Array String) (requests : List Request),
      let out := (Console.terminal ⟨input.toUTF8.data.toList, keys, writes⟩).readAll requests
      ∃ (t : Terminal) (ends : List (List Char)) (rest : String), out.2 = .terminal t ∧
        t.stdin = rest.toUTF8.data.toList ∧
        ends.length = out.1.countP Reading.isLine ∧ (∀ e ∈ ends, Terminal.LineEnd e) ∧
        transcript out.1 ends ++ (t.keys ++ rest.toList) = keys ++ input.toList ∧
        t.readKey.1 = ofOption (t.keys ++ rest.toList).head? ∧
        (t.readLine.1.get? = none ↔ t.keys ++ rest.toList = []) := by
  constructor
  · intro s requests
    obtain ⟨ends, _, -, hends, htext, s', hs', rfl⟩ := readAll_takes
      (L := fun c cs => ∃ s : Script, c = .script s ∧ s.left = cs)
      (by
        rintro _ _ ⟨s, rfl, rfl⟩ q
        obtain ⟨s', htakes, hs'⟩ := read_script s q
        exact ⟨s'.left, htakes, s', hs', rfl⟩)
      ⟨s, rfl, rfl⟩ requests
    rw [transcript_of_nil _ hends] at htext
    exact ⟨s', hs', htext, s'.readKey_eq_head?⟩
  · intro input keys writes requests out
    obtain ⟨ends, _, hlen, hends, htext, t, rest, ht, hstdin, rfl⟩ := readAll_takes
      (L := fun c cs => ∃ (t : Terminal) (rest : List Char),
        c = .terminal t ∧ t.stdin = Terminal.utf8 rest ∧ t.keys ++ rest = cs)
      (by
        rintro _ _ ⟨t, rest, rfl, hstdin, rfl⟩ q
        obtain ⟨t', rest', htakes, ht', hstdin'⟩ := read_terminal hstdin q
        exact ⟨_, htakes, t', rest', ht', hstdin', rfl⟩)
      ⟨⟨input.toUTF8.data.toList, keys, writes⟩, input.toList, rfl,
        (Terminal.utf8_toList input).symm, rfl⟩ requests
    refine ⟨t, ends, String.ofList rest, ht, ?_, hlen, hends, ?_⟩
    · rw [← Terminal.utf8_toList, String.toList_ofList, hstdin]
    · rw [String.toList_ofList]
      exact ⟨htext, Terminal.readKey_eq_head? hstdin, Terminal.readLine_eq_none_iff hstdin⟩

end Console

end PulseFlow
