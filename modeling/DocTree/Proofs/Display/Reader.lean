import DocTree.Ty.Display

/-!
Reading back what is shown of a type. The text is cut into words and marks, and the reader goes through
them once. It keeps what has been begun, the innermost first, and the type that it has read last. What
has been begun is finished when something comes that binds weaker.
-/

namespace DocTree.Ty

/-! ### Words and marks -/

/-- The letters of names and words. -/
def isLetter (c : Char) : Bool := c.isAlphanum || c = '_'

/-- What a text holds beside words. -/
inductive Mark where
  | openGroup | closeGroup | openList | closeList | openArgs | closeArgs
  | comma | and | or | question | colon | blank
  deriving DecidableEq, Repr

def Mark.ofChar : Char → Mark
  | '(' => .openGroup
  | ')' => .closeGroup
  | '[' => .openList
  | ']' => .closeList
  | '<' => .openArgs
  | '>' => .closeArgs
  | ',' => .comma
  | '&' => .and
  | '|' => .or
  | '?' => .question
  | ':' => .colon
  | _ => .blank

inductive Token where
  | word (letters : List Char)
  | mark (m : Mark)
  deriving DecidableEq, Repr

/-- A text cut into marks and the words between them. -/
def tokens : List Char → List Token
  | [] => []
  | c :: text =>
    if isLetter c then
      match tokens text with
      | .word letters :: others => .word (c :: letters) :: others
      | others => .word [c] :: others
    else .mark (.ofChar c) :: tokens text

/-- A text that does not go on with a word. -/
def Outside (text : List Char) : Prop := ∀ c ∈ text.head?, isLetter c = false

theorem outside_mark {c : Char} {text : List Char} (h : isLetter c = false) : Outside (c :: text) := by
  intro d hd
  obtain rfl := Option.some.inj hd
  exact h

theorem tokens_word {letters text : List Char} (hne : letters ≠ [])
    (hletters : ∀ c ∈ letters, isLetter c = true) (htext : Outside text) :
    tokens (letters ++ text) = .word letters :: tokens text := by
  induction letters with
  | nil => exact absurd rfl hne
  | cons c letters ih =>
    have hc := hletters c List.mem_cons_self
    rw [List.cons_append, tokens, if_pos hc]
    by_cases hlast : letters = []
    · subst hlast
      rw [List.nil_append]
      cases text with
      | nil => rfl
      | cons d text =>
        have hd : isLetter d = false := htext d rfl
        rw [tokens, hd]
        rfl
    · rw [ih hlast fun d hd => hletters d (List.mem_cons_of_mem c hd)]

/-! ### What has been begun -/

/-- A type of which some parts have been read. -/
inductive Frame where
  | group
  | tuple (before : List Ty)
  | args (name : String) (before : List Ty)
  | index (object : Ty)
  | operator (op : Operator)
  | intersection (before : List Ty)
  | union (before : List Ty)
  /-- A conditional type up to `extends`. -/
  | condition (check : Ty)
  /-- A conditional type up to the question mark. -/
  | branches (check extend : Ty)
  /-- A conditional type up to the colon. -/
  | otherwise (check extend yes : Ty)

namespace Frame

/-- How strongly it binds the part that comes next. What ends with a mark of its own is finished by
nothing else. -/
def strength : Frame → Strength
  | .operator _ => .operator
  | .intersection _ => .intersection
  | .union _ => .union
  | .otherwise .. => .conditional
  | _ => .anything

/-- How strongly the part that comes next has to bind so that it is read whole. -/
def asked : Frame → Strength
  | .operator _ | .intersection _ => .operator
  | .union _ => .intersection
  | .condition _ => .aboveConditional
  | _ => .anything

/-- What is finished with its last part. -/
def close (last : Ty) : Frame → Ty
  | .operator op => .operator op last
  | .intersection before => .intersection (before ++ [last])
  | .union before => .union (before ++ [last]) none
  | .otherwise check extend yes => .conditional check extend yes last
  | _ => last

theorem strength_le {f : Frame} {k : Strength} (hk : Strength.conditional ≤ k) (h : f.asked ≤ k) :
    f.strength ≤ k := by
  cases f with
  | operator op => exact h
  | intersection before =>
    exact Nat.le_trans (by decide : Strength.intersection ≤ Strength.operator) h
  | union before => exact Nat.le_trans (by decide : Strength.union ≤ Strength.intersection) h
  | otherwise check extend yes => exact hk
  | _ => exact Nat.zero_le k

theorem strength_lt_primary (f : Frame) : f.strength < .primary := by
  cases f <;> simp only [strength] <;> decide

/-- Nothing that has been begun binds just above a conditional type. -/
theorem union_le_strength {f : Frame} (h : Strength.aboveConditional ≤ f.strength) :
    Strength.union ≤ f.strength := by
  revert h
  cases f <;> simp only [strength] <;> decide

end Frame

/-- How strongly what comes next has to bind so that it is read whole. -/
def room (frames : List Frame) : Strength := frames.head?.elim .anything Frame.asked

theorem room_le_operator (frames : List Frame) : room frames ≤ .operator := by
  cases frames with
  | nil => decide
  | cons f fs => cases f <;> simp only [room, List.head?_cons, Option.elim_some, Frame.asked] <;> decide

/-- Where there is room for something that binds so strongly, nothing is finished that binds as
strongly. -/
theorem strength_lt_of_room {fs : List Frame} {j k : Strength} (hleast : Strength.conditional ≤ j)
    (hroom : room fs ≤ j) (hjk : j < k) : ∀ f ∈ fs.head?, f.strength < k := by
  intro f hf
  rw [room, hf] at hroom
  exact Nat.lt_of_le_of_lt (f.strength_le hleast hroom) hjk

/-- All of them finished, the first first. -/
def closeAll (frames : List Frame) (last : Ty) : Ty :=
  frames.foldl (fun last f => f.close last) last

/-- Finish what binds at least so strongly. -/
def finish (asked : Strength) : List Frame → Ty → List Frame × Ty
  | [], last => ([], last)
  | f :: fs, last => if asked ≤ f.strength then finish asked fs (f.close last) else (f :: fs, last)

/-! ### Reading -/

/-- What has been begun, and the type that was read last if nothing has come behind it. -/
structure Reading where
  frames : List Frame
  operand : Option Ty

/-- What comes where a type begins. -/
def beforeOperand (fs : List Frame) : Token → Reading
  | .word letters =>
    match Operator.ofWord? (String.ofList letters) with
    | some op => ⟨.operator op :: fs, none⟩
    | none => ⟨fs, some (.reference (.broken (String.ofList letters)) none)⟩
  | .mark .openGroup => ⟨.group :: fs, none⟩
  | .mark .openList => ⟨.tuple [] :: fs, none⟩
  | .mark .closeList =>
    match fs with
    | .tuple before :: fs => ⟨fs, some (.tuple before)⟩
    | .index object :: fs => ⟨fs, some (.array object)⟩
    | fs => ⟨fs, none⟩
  | .mark _ => ⟨fs, none⟩

/-- The name that type arguments are given to. -/
def refName : Ty → String
  | .reference head _ => head.name
  | _ => ""

/-- What comes behind a type; the only word is `extends`. -/
@[simp] def afterOperand (fs : List Frame) (last : Ty) : Token → Reading
  | .word _ =>
    match finish .union fs last with
    | (fs, last) => ⟨.condition last :: fs, none⟩
  | .mark .openList => ⟨.index last :: fs, none⟩
  | .mark .openArgs => ⟨.args (refName last) [] :: fs, none⟩
  | .mark .and =>
    match finish .operator fs last with
    | (.intersection before :: fs, last) => ⟨.intersection (before ++ [last]) :: fs, none⟩
    | (fs, last) => ⟨.intersection [last] :: fs, none⟩
  | .mark .or =>
    match finish .intersection fs last with
    | (.union before :: fs, last) => ⟨.union (before ++ [last]) :: fs, none⟩
    | (fs, last) => ⟨.union [last] :: fs, none⟩
  | .mark .question =>
    match finish .union fs last with
    | (.condition check :: fs, last) => ⟨.branches check last :: fs, none⟩
    | (fs, last) => ⟨fs, some last⟩
  | .mark .colon =>
    match finish .conditional fs last with
    | (.branches check extend :: fs, last) => ⟨.otherwise check extend last :: fs, none⟩
    | (fs, last) => ⟨fs, some last⟩
  | .mark .comma =>
    match finish .conditional fs last with
    | (.tuple before :: fs, last) => ⟨.tuple (before ++ [last]) :: fs, none⟩
    | (.args name before :: fs, last) => ⟨.args name (before ++ [last]) :: fs, none⟩
    | (fs, last) => ⟨fs, some last⟩
  | .mark .closeList =>
    match finish .conditional fs last with
    | (.tuple before :: fs, last) => ⟨fs, some (.tuple (before ++ [last]))⟩
    | (.index object :: fs, last) => ⟨fs, some (.indexedAccess object last)⟩
    | (fs, last) => ⟨fs, some last⟩
  | .mark .closeArgs =>
    match finish .conditional fs last with
    | (.args name before :: fs, last) =>
      ⟨fs, some (.reference (.broken name) (some (before ++ [last])))⟩
    | (fs, last) => ⟨fs, some last⟩
  | .mark .closeGroup =>
    match finish .conditional fs last with
    | (.group :: fs, last) => ⟨fs, some last⟩
    | (fs, last) => ⟨fs, some last⟩
  | .mark _ => ⟨fs, some last⟩

def step (r : Reading) (token : Token) : Reading :=
  match r.operand with
  | none => beforeOperand r.frames token
  | some last => afterOperand r.frames last token

/-- What has been read behind a text. -/
def run (r : Reading) (text : List Char) : Reading := (tokens text).foldl step r

/-- The type that is shown by a text. -/
def read (text : String) : Option Ty :=
  let r := run ⟨[], none⟩ text.toList
  r.operand.map fun last => (finish .conditional r.frames last).2

variable {k : Strength} {last : Ty} {ps fs : List Frame}

theorem closeAll_concat (f : Frame) :
    closeAll (ps ++ [f]) last = f.close (closeAll ps last) := by
  rw [closeAll, closeAll, List.foldl_append, List.foldl_cons, List.foldl_nil]

theorem finish_append (h : ∀ f ∈ ps, k ≤ f.strength) :
    finish k (ps ++ fs) last = finish k fs (closeAll ps last) := by
  induction ps generalizing last with
  | nil => rfl
  | cons f ps ih =>
    rw [List.cons_append, finish, if_pos (h f List.mem_cons_self),
      ih fun g hg => h g (List.mem_cons_of_mem f hg)]
    rfl

theorem finish_of_lt (h : ∀ f ∈ fs.head?, f.strength < k) : finish k fs last = (fs, last) := by
  cases fs with
  | nil => rfl
  | cons f fs => rw [finish, if_neg (Nat.not_le_of_lt (h f rfl))]

/-- What binds strongly enough is finished, and no more. -/
theorem finish_eq (hps : ∀ f ∈ ps, k ≤ f.strength) (hfs : ∀ f ∈ fs.head?, f.strength < k) :
    finish k (ps ++ fs) last = (fs, closeAll ps last) := by
  rw [finish_append hps, finish_of_lt hfs]

theorem finish_cons {f : Frame} (hps : ∀ g ∈ ps, k ≤ g.strength) (hf : f.strength < k) :
    finish k (ps ++ f :: fs) last = (f :: fs, closeAll ps last) := by
  refine finish_eq hps fun g hg => ?_
  obtain rfl := Option.some.inj hg
  exact hf

/-- What ends with a mark of its own is left for that mark. -/
theorem finish_open {f : Frame} (hk : Strength.conditional ≤ k) (hps : ∀ g ∈ ps, k ≤ g.strength)
    (hf : f.strength = .anything) :
    finish k (ps ++ f :: fs) last = (f :: fs, closeAll ps last) :=
  finish_cons hps (hf ▸ Nat.lt_of_lt_of_le (by decide) hk)

/-! ### What the marks do -/

variable {after : List Char} {before : List Ty}

section Closing

variable (hps : ∀ f ∈ ps, Strength.conditional ≤ f.strength)
include hps

theorem run_closeGroup : run ⟨ps ++ .group :: fs, some last⟩ (')' :: after) =
    run ⟨fs, some (closeAll ps last)⟩ after := by
  change run (afterOperand _ last (.mark .closeGroup)) after = _
  rw [afterOperand, finish_open (by decide) hps rfl]

theorem run_closeTuple : run ⟨ps ++ .tuple before :: fs, some last⟩ (']' :: after) =
    run ⟨fs, some (.tuple (before ++ [closeAll ps last]))⟩ after := by
  change run (afterOperand _ last (.mark .closeList)) after = _
  rw [afterOperand, finish_open (by decide) hps rfl]

theorem run_closeIndex {object : Ty} :
    run ⟨ps ++ .index object :: fs, some last⟩ (']' :: after) =
      run ⟨fs, some (.indexedAccess object (closeAll ps last))⟩ after := by
  change run (afterOperand _ last (.mark .closeList)) after = _
  rw [afterOperand, finish_open (by decide) hps rfl]

theorem run_closeArgs {name : String} :
    run ⟨ps ++ .args name before :: fs, some last⟩ ('>' :: after) =
      run ⟨fs, some (.reference (.broken name) (some (before ++ [closeAll ps last])))⟩
        after := by
  change run (afterOperand _ last (.mark .closeArgs)) after = _
  rw [afterOperand, finish_open (by decide) hps rfl]

theorem run_comma_tuple : run ⟨ps ++ .tuple before :: fs, some last⟩ (", ".toList ++ after) =
    run ⟨.tuple (before ++ [closeAll ps last]) :: fs, none⟩ after := by
  change run (afterOperand _ last (.mark .comma)) (' ' :: after) = _
  rw [afterOperand, finish_open (by decide) hps rfl]
  rfl

theorem run_comma_args {name : String} :
    run ⟨ps ++ .args name before :: fs, some last⟩ (", ".toList ++ after) =
      run ⟨.args name (before ++ [closeAll ps last]) :: fs, none⟩ after := by
  change run (afterOperand _ last (.mark .comma)) (' ' :: after) = _
  rw [afterOperand, finish_open (by decide) hps rfl]
  rfl

theorem run_colon {check extend : Ty} :
    run ⟨ps ++ .branches check extend :: fs, some last⟩ (" : ".toList ++ after) =
      run ⟨.otherwise check extend (closeAll ps last) :: fs, none⟩ after := by
  change run (afterOperand (ps ++ .branches check extend :: fs) last (.mark .colon))
    (' ' :: after) = _
  rw [afterOperand, finish_open (by decide) hps rfl]
  rfl

end Closing

section Joining

theorem run_extends (hps : ∀ f ∈ ps, Strength.union ≤ f.strength)
    (hfs : ∀ f ∈ fs.head?, f.strength < .union) :
    run ⟨ps ++ fs, some last⟩ (" extends ".toList ++ after) =
      run ⟨.condition (closeAll ps last) :: fs, none⟩ after := by
  change run (afterOperand (ps ++ fs) last (.word "extends".toList))
    (' ' :: after) = _
  rw [afterOperand, finish_eq hps hfs]
  rfl

theorem run_question {check : Ty} (hps : ∀ f ∈ ps, Strength.union ≤ f.strength) :
    run ⟨ps ++ .condition check :: fs, some last⟩ (" ? ".toList ++ after) =
      run ⟨.branches check (closeAll ps last) :: fs, none⟩ after := by
  change run (afterOperand (ps ++ .condition check :: fs) last (.mark .question))
    (' ' :: after) = _
  rw [afterOperand, finish_open (by decide) hps rfl]
  rfl

theorem run_and (hps : ∀ f ∈ ps, Strength.operator ≤ f.strength) :
    run ⟨ps ++ .intersection before :: fs, some last⟩ (" & ".toList ++ after) =
      run ⟨.intersection (before ++ [closeAll ps last]) :: fs, none⟩ after := by
  change run (afterOperand (ps ++ .intersection before :: fs) last (.mark .and))
    (' ' :: after) = _
  rw [afterOperand, finish_cons hps (by simp only [Frame.strength]; decide)]
  rfl

theorem run_or (hps : ∀ f ∈ ps, Strength.intersection ≤ f.strength) :
    run ⟨ps ++ .union before :: fs, some last⟩ (" | ".toList ++ after) =
      run ⟨.union (before ++ [closeAll ps last]) :: fs, none⟩ after := by
  change run (afterOperand (ps ++ .union before :: fs) last (.mark .or))
    (' ' :: after) = _
  rw [afterOperand, finish_cons hps (by simp only [Frame.strength]; decide)]
  rfl

/-- Where there is room for an intersection, none has been begun. -/
theorem run_and_first (hps : ∀ f ∈ ps, Strength.operator ≤ f.strength)
    (hroom : room fs ≤ .intersection) :
    run ⟨ps ++ fs, some last⟩ (" & ".toList ++ after) =
      run ⟨.intersection [closeAll ps last] :: fs, none⟩ after := by
  change run (afterOperand (ps ++ fs) last (.mark .and))
    (' ' :: after) = _
  rw [afterOperand, finish_eq hps (strength_lt_of_room (by decide) hroom (by decide))]
  cases fs with
  | nil => rfl
  | cons f fs =>
    cases f with
    | intersection before =>
      have hle : Strength.operator ≤ Strength.intersection := hroom
      exact absurd hle (by decide)
    | _ => rfl

/-- Where there is room for a union, none has been begun. -/
theorem run_or_first (hps : ∀ f ∈ ps, Strength.intersection ≤ f.strength)
    (hroom : room fs ≤ .union) :
    run ⟨ps ++ fs, some last⟩ (" | ".toList ++ after) =
      run ⟨.union [closeAll ps last] :: fs, none⟩ after := by
  change run (afterOperand (ps ++ fs) last (.mark .or))
    (' ' :: after) = _
  rw [afterOperand, finish_eq hps (strength_lt_of_room (by decide) hroom (by decide))]
  cases fs with
  | nil => rfl
  | cons f fs =>
    cases f with
    | union before =>
      have hle : Strength.intersection ≤ Strength.union := hroom
      exact absurd hle (by decide)
    | _ => rfl

end Joining

end DocTree.Ty
