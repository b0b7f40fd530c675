import Mathlib.Tactic

/-!
The reader of udev rules (tools/udev_to_vdev/udev_rule.cpp). Both classes take one character at a
time: a field is built up from four strings that are locked one after the other, and a rule hands
characters to its last field. What is fed here is a printed rule. A field that has taken its value
in is full, but an empty value is never taken for a value: its closing quote is passed over, and
the field goes on with what follows. Comments and continued lines are looked for in values as well.
-/
namespace Vdev.UdevRules

section Feed

variable {σ : Type} (put : σ → Char → Except String σ)

def feed : List Char → σ → Except String σ
  | [], s => .ok s
  | c :: cs, s =>
    match put s c with
    | .error e => .error e
    | .ok s => feed cs s

variable {put}

theorem feed_cons_eq_ok {c : Char} {cs : List Char} {s t : σ} :
    feed put (c :: cs) s = .ok t ↔ ∃ s', put s c = .ok s' ∧ feed put cs s' = .ok t := by
  rw [feed]
  cases put s c <;> simp

theorem feed_cons_of_ok {c : Char} {cs : List Char} {s t : σ} (h : put s c = .ok t) :
    feed put (c :: cs) s = feed put cs t := by
  rw [feed, h]

theorem feed_append_of_ok {cs ds : List Char} {s t : σ} (h : feed put cs s = .ok t) :
    feed put (cs ++ ds) s = feed put ds t := by
  induction cs generalizing s with
  | nil =>
    cases h
    rfl
  | cons c cs ih =>
    obtain ⟨s', hput, hrest⟩ := feed_cons_eq_ok.mp h
    rw [List.cons_append, feed_cons_of_ok hput]
    exact ih hrest

end Feed

/-- `lockable`, for a string. -/
structure Lockable where
  text : List Char := []
  locked : Bool := false
  deriving DecidableEq, Repr

namespace Lockable

def push (s : Lockable) (c : Char) : Lockable := { s with text := s.text ++ [c] }

def lock (s : Lockable) : Lockable := { s with locked := true }

def unlock (s : Lockable) : Lockable := { s with locked := false }

end Lockable

/-- `udev_field_t`, as its constructor leaves it. -/
structure UdevField where
  name : Lockable := {}
  subname : Lockable := { locked := true }
  op : Lockable := {}
  value : Lockable := {}
  deriving DecidableEq, Repr

namespace UdevField

def full (f : UdevField) : Bool := f.value.locked

def empty (f : UdevField) : Bool := f.value.text.isEmpty

def isLetter (c : Char) : Bool := c = '_' || c.isAlpha

/-- `udev_field_t::operator<<`. What it returns is whether the field is not full. -/
def put (f : UdevField) (input : Char) : Except String UdevField :=
  if f.full then .error "field overflow!"
  else if f.op.locked then
    if input = '"' then
      if f.value.text ≠ [] ∧ f.value.text.getLast? ≠ some '\\' then
        .ok { f with value := f.value.lock }
      else .ok f
    else .ok { f with value := f.value.push input }
  else if input = '{' then
    if ¬f.subname.locked then .error "unexpected opening curled bracket"
    else .ok { f with subname := f.subname.unlock, name := f.name.lock }
  else if input = '}' then
    if f.subname.locked then .error "unexpected closing curled bracket"
    else .ok { f with subname := f.subname.lock }
  else if input = '=' then
    let op := f.op.push input
    .ok { f with name := f.name.lock, op := if op.text.length = 2 then op.lock else op }
  else if input = ':' ∨ input = '+' ∨ input = '!' then
    if f.op.text ≠ [] then .error "bad operator"
    else .ok { f with name := f.name.lock, op := f.op.push input }
  else if input = '"' then
    if ¬f.name.locked ∨ ¬f.subname.locked then .error "unexpected quotation"
    else .ok { f with op := f.op.lock }
  else if isLetter input then
    if ¬f.name.locked then .ok { f with name := f.name.push input }
    else if ¬f.subname.locked then .ok { f with subname := f.subname.push input }
    else .error "expected quotation"
  else if input = ' ' ∨ input = '\t' then
    if ¬f.name.locked ∧ f.name.text ≠ [] then .ok { f with name := f.name.lock }
    else .ok f
  else .error "invalid character"

end UdevField

/-- `udev_rule_t`, as its constructor leaves it. The list of fields always has a last one. -/
structure UdevRule where
  earlier : List UdevField := []
  back : UdevField := {}
  locked : Bool := false
  lineContinues : Bool := false
  comment : Lockable := { locked := true }
  deriving DecidableEq, Repr

namespace UdevRule

def fields (r : UdevRule) : List UdevField := r.earlier ++ [r.back]

def full (r : UdevRule) : Bool := r.locked

/-- `udev_rule_t::operator<<`. What it returns is whether the rule is not full. -/
def put (r : UdevRule) (input : Char) : Except String UdevRule :=
  if r.full then .error "rule overflow!"
  else if ¬r.comment.locked then
    let comment := if input = '\n' then r.comment.lock else r.comment
    .ok { r with comment := comment.push input }
  else if input = '#' then .ok { r with comment := r.comment.unlock.push input }
  else if input = '\\' ∧ r.back.name.text = [] then .ok { r with lineContinues := true }
  else if input = '\n' then
    .ok { r with locked := if r.lineContinues then r.locked else true, lineContinues := false }
  else if r.back.full then
    if input = '\n' ∨ input = ' ' ∨ input = '\t' then .ok r
    else if input = ',' then
      if r.lineContinues then .error "expected endline"
      else if ¬r.back.empty then .ok { r with earlier := r.fields, back := {} }
      else .ok r
    else .error "unexpected character between fields"
  else
    match r.back.put input with
    | .error e => .error e
    | .ok back => .ok { r with back := back }

end UdevRule

inductive Op
  | equal | unequal | assign | add | final
  deriving DecidableEq, Repr

def Op.text : Op → List Char
  | .equal => ['=', '=']
  | .unequal => ['!', '=']
  | .assign => ['=']
  | .add => ['+', '=']
  | .final => [':', '=']

structure Clause where
  name : List Char
  attr : Option (List Char)
  op : Op
  value : List Char
  name_letters : ∀ c ∈ name, UdevField.isLetter c
  attr_letters : ∀ a ∈ attr, ∀ c ∈ a, UdevField.isLetter c
  no_quote : '"' ∉ value
  no_newline : '\n' ∉ value
  no_escape : value.getLast? ≠ some '\\'

namespace Clause

def attrText (f : Clause) : List Char :=
  match f.attr with
  | none => []
  | some a => '{' :: (a ++ ['}'])

/-- What stands in front of the characters of the value. -/
def head (f : Clause) : List Char := f.name ++ f.attrText ++ f.op.text ++ ['"']

def print (f : Clause) : List Char := f.head ++ f.value ++ ['"']

end Clause

def printClauses (fs : List Clause) : List Char := [',', ' '].intercalate (fs.map Clause.print)

def printRule (fs : List Clause) : List Char := printClauses fs ++ ['\n']

def UdevField.texts (f : UdevField) : List Char × List Char × List Char × List Char :=
  (f.name.text, f.subname.text, f.op.text, f.value.text)

/-- The texts that a field has once it is written down. A field without an attribute has an empty
one. -/
def Clause.texts (f : Clause) : List Char × List Char × List Char × List Char :=
  (f.name, f.attr.getD [], f.op.text, f.value)

def RoundTrips (fs : List Clause) : Prop :=
  ∃ r : UdevRule, feed UdevRule.put (printRule fs) {} = .ok r ∧ r.full = true ∧
    r.fields.map UdevField.texts = fs.map Clause.texts

namespace UdevField

theorem isLetter_ne {c d : Char} (hc : isLetter c) (hd : isLetter d = false) : c ≠ d := by
  rintro rfl
  rw [hd] at hc
  cases hc

/-- A letter goes to the name, or to the subname once the name is complete. -/
theorem put_letter {f : UdevField} {c : Char} (hc : isLetter c) (hfull : f.value.locked = false)
    (hop : f.op.locked = false) :
    f.put c = if ¬f.name.locked then .ok { f with name := f.name.push c }
      else if ¬f.subname.locked then .ok { f with subname := f.subname.push c }
      else .error "expected quotation" := by
  have hne : ∀ d, isLetter d = false → c ≠ d := fun d hd => isLetter_ne hc hd
  rw [put, full, hfull, hop, if_neg Bool.false_ne_true, if_neg Bool.false_ne_true,
    if_neg (hne '{' rfl), if_neg (hne '}' rfl), if_neg (hne '=' rfl), if_neg, if_neg (hne '"' rfl),
    if_pos hc]
  rintro (h | h | h)
  · exact hne ':' rfl h
  · exact hne '+' rfl h
  · exact hne '!' rfl h

theorem feed_name (w n : List Char) (hw : ∀ c ∈ w, isLetter c) :
    feed put w { name := ⟨n, false⟩ } = .ok { name := ⟨n ++ w, false⟩ } := by
  induction w generalizing n with
  | nil => rw [List.append_nil, feed]
  | cons c w ih =>
    have hput := put_letter (f := { name := ⟨n, false⟩ }) (hw c List.mem_cons_self) rfl rfl
    rw [if_pos Bool.false_ne_true] at hput
    rw [feed_cons_of_ok hput]
    have h := ih (n ++ [c]) (fun d hd => hw d (List.mem_cons_of_mem c hd))
    rwa [List.append_assoc] at h

theorem feed_subname (w n s : List Char) (hw : ∀ c ∈ w, isLetter c) :
    feed put w { name := ⟨n, true⟩, subname := ⟨s, false⟩ } =
      .ok { name := ⟨n, true⟩, subname := ⟨s ++ w, false⟩ } := by
  induction w generalizing s with
  | nil => rw [List.append_nil, feed]
  | cons c w ih =>
    have hput := put_letter (f := { name := ⟨n, true⟩, subname := ⟨s, false⟩ })
      (hw c List.mem_cons_self) rfl rfl
    rw [if_neg (not_not_intro rfl), if_pos Bool.false_ne_true] at hput
    rw [feed_cons_of_ok hput]
    have h := ih (s ++ [c]) (fun d hd => hw d (List.mem_cons_of_mem c hd))
    rwa [List.append_assoc] at h

theorem put_value {f : UdevField} {c : Char} (hc : c ≠ '"') (hfull : f.value.locked = false)
    (hop : f.op.locked = true) : f.put c = .ok { f with value := f.value.push c } := by
  rw [put, full, hfull, hop, if_neg Bool.false_ne_true, if_pos rfl, if_neg hc]

/-- A quote behind a value ends it. -/
theorem put_quote {f : UdevField} (hfull : f.value.locked = false) (hop : f.op.locked = true)
    (hne : f.value.text ≠ []) (hlast : f.value.text.getLast? ≠ some '\\') :
    f.put '"' = .ok { f with value := f.value.lock } := by
  rw [put, full, hfull, hop, if_neg Bool.false_ne_true, if_pos rfl, if_pos rfl, if_pos ⟨hne, hlast⟩]

theorem full_of_put {f g : UdevField} {c : Char} (h : f.put c = .ok g) : f.full = false := by
  by_contra hfull
  rw [put, if_pos (by simpa using hfull)] at h
  cases h

/-- Names and values only grow. -/
theorem put_grows {f g : UdevField} {c : Char} (h : f.put c = .ok g) :
    f.name.text <+: g.name.text ∧ f.value.text <+: g.value.text := by
  have hpush : ∀ s : Lockable, s.text <+: (s.push c).text := fun s => List.prefix_append _ _
  have hlock : ∀ s : Lockable, s.lock.text = s.text := fun s => rfl
  have hself : ∀ s : Lockable, s.text <+: s.text := fun s => List.prefix_rfl
  have hfull := full_of_put h
  rw [put, hfull, if_neg Bool.false_ne_true] at h
  by_cases hop : f.op.locked
  · rw [if_pos hop] at h
    grind
  · rw [if_neg hop] at h
    by_cases hletter : isLetter c
    · grind [isLetter_ne]
    · rw [if_neg hletter] at h
      grind

end UdevField

namespace Clause

def opened (f : Clause) (v : List Char) : UdevField where
  name := ⟨f.name, true⟩
  subname := ⟨f.attr.getD [], true⟩
  op := ⟨f.op.text, true⟩
  value := ⟨v, false⟩

def closed (f : Clause) : UdevField := { f.opened [] with value := ⟨f.value, true⟩ }

theorem feed_attrText (f : Clause) (n : List Char) :
    feed UdevField.put f.attrText { name := ⟨n, false⟩ } =
      .ok { name := ⟨n, f.attr.isSome⟩, subname := ⟨f.attr.getD [], true⟩ } := by
  have hletters := f.attr_letters
  unfold attrText
  cases hattr : f.attr with
  | none => rfl
  | some a =>
    have hopen : UdevField.put { name := ⟨n, false⟩ } '{' =
        .ok { name := ⟨n, true⟩, subname := ⟨[], false⟩ } := rfl
    have ha : ∀ c ∈ a, UdevField.isLetter c := hletters a (by rw [hattr]; rfl)
    rw [feed_cons_of_ok hopen, feed_append_of_ok (UdevField.feed_subname a n [] ha)]
    rfl

theorem feed_op (op : Op) (n s : List Char) (l : Bool) :
    feed UdevField.put (op.text ++ ['"'])
        { name := ⟨n, l⟩, subname := ⟨s, true⟩ } =
      .ok { name := ⟨n, true⟩, subname := ⟨s, true⟩, op := ⟨op.text, true⟩ } := by
  cases op <;> rfl

theorem feed_head (f : Clause) : feed UdevField.put f.head {} = .ok (f.opened []) := by
  unfold head
  rw [List.append_assoc, List.append_assoc]
  have hname := UdevField.feed_name f.name [] f.name_letters
  rw [List.nil_append] at hname
  rw [feed_append_of_ok hname, feed_append_of_ok (f.feed_attrText f.name)]
  exact feed_op f.op f.name (f.attr.getD []) f.attr.isSome

theorem feed_value (f : Clause) (v w : List Char) (hw : '"' ∉ w) :
    feed UdevField.put w (f.opened v) = .ok (f.opened (v ++ w)) := by
  induction w generalizing v with
  | nil => rw [List.append_nil, feed]
  | cons c w ih =>
    have hc : c ≠ '"' := fun h => hw (h ▸ List.mem_cons_self)
    rw [feed_cons_of_ok (UdevField.put_value hc rfl rfl)]
    have h := ih (v ++ [c]) (fun hmem => hw (List.mem_cons_of_mem c hmem))
    rwa [List.append_assoc] at h

/-- The closing quote is taken for one, when there is a value in front of it. -/
theorem put_quote (f : Clause) (h : f.value ≠ []) :
    (f.opened f.value).put '"' = .ok f.closed :=
  UdevField.put_quote rfl rfl h f.no_escape

theorem put_quote_empty (f : Clause) : (f.opened []).put '"' = .ok (f.opened []) := rfl

end Clause

namespace UdevRule

/-- A rule outside comments and continued lines. -/
def reading (earlier : List UdevField) (back : UdevField) : UdevRule :=
  { earlier := earlier, back := back }

/-- A character that a rule hands to its last field. -/
theorem put_reading {earlier : List UdevField} {f g : UdevField} {c : Char} (h : f.put c = .ok g)
    (hhash : c ≠ '#') (hnewline : c ≠ '\n') (hescape : c = '\\' → f.name.text ≠ []) :
    (reading earlier f).put c = .ok (reading earlier g) := by
  have hfull := UdevField.full_of_put h
  rw [put, full, reading]
  dsimp only
  rw [if_neg Bool.false_ne_true, if_neg (not_not_intro rfl), if_neg hhash,
    if_neg (fun hand => hescape hand.1 hand.2), if_neg hnewline, hfull,
    if_neg Bool.false_ne_true, h]
  rfl

theorem feed_reading {earlier : List UdevField} {s : List Char} {f g : UdevField}
    (h : feed UdevField.put s f = .ok g) (hhash : '#' ∉ s) (hnewline : '\n' ∉ s)
    (hescape : '\\' ∈ s → f.name.text ≠ []) :
    feed put s (reading earlier f) = .ok (reading earlier g) := by
  induction s generalizing f with
  | nil =>
    cases h
    rfl
  | cons c s ih =>
    rw [feed] at h
    cases hput : f.put c with
    | error e =>
      rw [hput] at h
      cases h
    | ok f' =>
      rw [hput] at h
      have hc : ∀ d, d ∉ c :: s → c ≠ d := by
        rintro d hd rfl
        exact hd List.mem_cons_self
      have hstep : (reading earlier f).put c = .ok (reading earlier f') :=
        put_reading hput (hc _ hhash) (hc _ hnewline)
          (fun heq => hescape (heq ▸ List.mem_cons_self))
      rw [feed_cons_of_ok hstep]
      refine ih h (fun hmem => hhash (List.mem_cons_of_mem c hmem))
        (fun hmem => hnewline (List.mem_cons_of_mem c hmem)) (fun hmem hnil => ?_)
      have hgrows := (UdevField.put_grows hput).1
      rw [hnil] at hgrows
      exact hescape (List.mem_cons_of_mem c hmem) (List.prefix_nil.mp hgrows)

inductive Step (r : UdevRule) (c : Char) : UdevRule → Prop
  | comment (h : r.comment.locked = false) :
      Step r c { r with comment := (if c = '\n' then r.comment.lock else r.comment).push c }
  | hash (h : c = '#') : Step r c { r with comment := r.comment.unlock.push c }
  | escape (h : c = '\\') : Step r c { r with lineContinues := true }
  | newline (h : c = '\n') (hcomment : r.comment.locked = true) :
      Step r c { r with
        locked := if r.lineContinues then r.locked else true, lineContinues := false }
  | ignored (h : c ≠ '\n') (hhash : c ≠ '#') : Step r c r
  | comma (h : c = ',') : Step r c { r with earlier := r.fields, back := {} }
  | field (g : UdevField) (h : c ≠ '\n') (hhash : c ≠ '#') (hput : r.back.put c = .ok g) :
      Step r c { r with back := g }

theorem step_of_put {r q : UdevRule} {c : Char} (h : r.put c = .ok q) :
    r.locked = false ∧ Step r c q := by
  have hfull : ¬r.full = true := by
    intro hfull
    rw [put, if_pos hfull] at h
    cases h
  refine ⟨by simpa [full] using hfull, ?_⟩
  rw [put, if_neg hfull] at h
  by_cases hcomment : r.comment.locked = true
  · rw [if_neg (not_not_intro hcomment)] at h
    by_cases hhash : c = '#'
    · rw [if_pos hhash] at h
      obtain rfl := Except.ok.inj h
      exact .hash hhash
    rw [if_neg hhash] at h
    split at h
    · rename_i hescape
      obtain rfl := Except.ok.inj h
      exact .escape hescape.1
    by_cases hnewline : c = '\n'
    · rw [if_pos hnewline] at h
      obtain rfl := Except.ok.inj h
      exact .newline hnewline hcomment
    rw [if_neg hnewline] at h
    split at h
    · split at h
      · obtain rfl := Except.ok.inj h
        exact .ignored hnewline hhash
      · split at h
        · rename_i hcomma
          split at h
          · cases h
          · split at h
            · obtain rfl := Except.ok.inj h
              exact .comma hcomma
            · obtain rfl := Except.ok.inj h
              exact .ignored hnewline hhash
        · cases h
    · split at h
      · cases h
      · rename_i g hput
        obtain rfl := Except.ok.inj h
        exact .field g hnewline hhash hput
  · rw [if_pos hcomment] at h
    obtain rfl := Except.ok.inj h
    exact .comment (by simpa using hcomment)

/-- Inside a comment or a continued line, so that the end of the line does not end the rule. -/
def Held (r : UdevRule) : Prop := r.comment.locked = false ∨ r.lineContinues = true

theorem Step.held {r q : UdevRule} {c : Char} (h : Step r c q) (hc : c ≠ '\n') (hr : r.Held) :
    q.Held := by
  cases h with
  | comment hcomment =>
    left
    rw [if_neg hc]
    exact hcomment
  | hash _ => exact Or.inl rfl
  | escape _ => exact Or.inr rfl
  | newline hnewline _ => exact absurd hnewline hc
  | ignored _ _ => exact hr
  | comma _ => exact hr
  | field _ _ _ _ => exact hr

theorem Step.locked {r q : UdevRule} {c : Char} (h : Step r c q) (hlocked : r.locked = false)
    (hc : c ≠ '\n' ∨ r.Held) : q.locked = false := by
  cases h with
  | newline hnewline hcomment =>
    rcases hc with hc | hc | hc
    · exact absurd hnewline hc
    · rw [hcomment] at hc
      cases hc
    · dsimp only
      rw [if_pos hc, hlocked]
  | comment _ => exact hlocked
  | hash _ => exact hlocked
  | escape _ => exact hlocked
  | ignored _ _ => exact hlocked
  | comma _ => exact hlocked
  | field _ _ _ _ => exact hlocked

/-- The line ends in a comment, or goes on: the rule is not full. -/
theorem full_of_held {t : List Char} {r q : UdevRule} (ht : '\n' ∉ t) (hr : r.Held)
    (h : feed put (t ++ ['\n']) r = .ok q) : q.full = false := by
  induction t generalizing r with
  | nil =>
    obtain ⟨r', hput, hq⟩ := feed_cons_eq_ok.mp h
    cases hq
    obtain ⟨hlocked, hstep⟩ := step_of_put hput
    exact hstep.locked hlocked (Or.inr hr)
  | cons c t ih =>
    obtain ⟨r', hput, hq⟩ := feed_cons_eq_ok.mp h
    have hc : c ≠ '\n' := fun heq => ht (heq ▸ List.mem_cons_self)
    exact ih (fun hmem => ht (List.mem_cons_of_mem c hmem)) ((step_of_put hput).2.held hc hr) hq

theorem put_hash {r q : UdevRule} (h : r.put '#' = .ok q) : q.Held := by
  obtain ⟨-, hstep⟩ := step_of_put h
  cases hstep with
  | comment hcomment => exact Or.inl hcomment
  | hash _ => exact Or.inl rfl
  | escape _ => exact Or.inr rfl
  | newline heq _ => exact absurd heq (by decide)
  | ignored _ hne => exact absurd rfl hne
  | comma heq => exact absurd heq (by decide)
  | field _ _ hne _ => exact absurd rfl hne

/-- A number sign starts a comment wherever it stands, and the end of the line ends only that. -/
theorem full_of_hash {t : List Char} {r q : UdevRule} (ht : '\n' ∉ t) (hhash : '#' ∈ t)
    (h : feed put (t ++ ['\n']) r = .ok q) : q.full = false := by
  induction t generalizing r with
  | nil => cases hhash
  | cons c t ih =>
    obtain ⟨r', hput, hq⟩ := feed_cons_eq_ok.mp h
    have ht' : '\n' ∉ t := fun hmem => ht (List.mem_cons_of_mem c hmem)
    rcases List.mem_cons.mp hhash with rfl | hmem
    · exact full_of_held ht' (put_hash hput) hq
    · exact ih ht' hmem hq

def Grows (r q : UdevRule) : Prop :=
  ∀ (j : ℕ) (f : UdevField), r.fields[j]? = some f →
    ∃ g : UdevField, q.fields[j]? = some g ∧ f.value.text <+: g.value.text

theorem Step.grows {r q : UdevRule} {c : Char} (h : Step r c q) : Grows r q := by
  intro j f hf
  cases h with
  | comma _ =>
    refine ⟨f, ?_, List.prefix_rfl⟩
    have hlt : j < r.fields.length := (List.getElem?_eq_some_iff.mp hf).1
    rw [fields, List.getElem?_append_left hlt]
    exact hf
  | field g _ _ hput =>
    unfold fields at hf ⊢
    dsimp only
    by_cases hlt : j < r.earlier.length
    · rw [List.getElem?_append_left hlt] at hf ⊢
      exact ⟨f, hf, List.prefix_rfl⟩
    · rw [List.getElem?_append_right (Nat.le_of_not_lt hlt)] at hf ⊢
      cases hj : j - r.earlier.length with
      | zero =>
        rw [hj] at hf
        obtain rfl := Option.some.inj hf
        exact ⟨g, rfl, (UdevField.put_grows hput).2⟩
      | succ i =>
        rw [hj] at hf
        cases hf
  | comment _ => exact ⟨f, hf, List.prefix_rfl⟩
  | hash _ => exact ⟨f, hf, List.prefix_rfl⟩
  | escape _ => exact ⟨f, hf, List.prefix_rfl⟩
  | newline _ _ => exact ⟨f, hf, List.prefix_rfl⟩
  | ignored _ _ => exact ⟨f, hf, List.prefix_rfl⟩

theorem feed_grows {t : List Char} {r q : UdevRule} (h : feed put t r = .ok q) : Grows r q := by
  induction t generalizing r with
  | nil =>
    cases h
    exact fun j f hf => ⟨f, hf, List.prefix_rfl⟩
  | cons c t ih =>
    obtain ⟨r', hput, hq⟩ := feed_cons_eq_ok.mp h
    intro j f hf
    obtain ⟨g, hg, hpre⟩ := (step_of_put hput).2.grows j f hf
    obtain ⟨k, hk, hpre'⟩ := ih hq j g hg
    exact ⟨k, hk, hpre.trans hpre'⟩

end UdevRule

namespace Clause

open UdevRule

theorem not_mem_head (f : Clause) {d : Char} (hletter : UdevField.isLetter d = false)
    (hmark : d ∉ ['{', '}', '"', '=', '!', '+', ':']) : d ∉ f.head := by
  have hword : ∀ w : List Char, (∀ c ∈ w, UdevField.isLetter c) → d ∉ w := by
    intro w hw hmem
    exact UdevField.isLetter_ne (hw d hmem) hletter rfl
  have hname := hword f.name f.name_letters
  have hattr : d ∉ f.attrText := by
    have hletters := f.attr_letters
    unfold attrText
    cases hattr : f.attr with
    | none => exact List.not_mem_nil
    | some a =>
      have ha := hword a (hletters a (by rw [hattr]; rfl))
      simp only [List.mem_cons, List.mem_append, List.not_mem_nil, or_false, not_or] at hmark ⊢
      exact ⟨hmark.1, ha, hmark.2.1⟩
  have hop : d ∉ f.op.text := by
    cases f.op <;> simp [Op.text] at hmark ⊢ <;> tauto
  have hquote : d ∉ ['"'] := by simp at hmark ⊢; tauto
  simp only [head, List.mem_append, not_or]
  exact ⟨⟨⟨hname, hattr⟩, hop⟩, hquote⟩

/-- The rule has read a field up to some place in its value. -/
theorem feed_opened (f : Clause) (e : List UdevField) (v : List Char) (hquote : '"' ∉ v)
    (hnewline : '\n' ∉ v) (hhash : '#' ∉ v) (hescape : '\\' ∈ v → f.name ≠ []) :
    feed UdevRule.put (f.head ++ v) (reading e {}) = .ok (reading e (f.opened v)) := by
  have hhead : feed UdevRule.put f.head (reading e {}) = .ok (reading e (f.opened [])) :=
    feed_reading f.feed_head (f.not_mem_head rfl (by decide)) (f.not_mem_head rfl (by decide))
      (fun hmem => absurd hmem (f.not_mem_head rfl (by decide)))
  rw [feed_append_of_ok hhead]
  have hvalue := f.feed_value [] v hquote
  rw [List.nil_append] at hvalue
  exact feed_reading hvalue hhash hnewline hescape

def done (f : Clause) : UdevField := if f.value = [] then f.opened [] else f.closed

theorem texts_done (f : Clause) : f.done.texts = f.texts := by
  unfold done
  split_ifs with h
  · simp [opened, UdevField.texts, texts, h]
  · rfl

theorem feed_print (f : Clause) (e : List UdevField) (hhash : '#' ∉ f.value)
    (hescape : f.name = [] → '\\' ∉ f.value) :
    feed UdevRule.put f.print (reading e {}) = .ok (reading e f.done) := by
  have hopened := f.feed_opened e f.value f.no_quote f.no_newline hhash
    (fun hmem hname => hescape hname hmem)
  rw [print, feed_append_of_ok hopened]
  have hquote : (f.opened f.value).put '"' = .ok f.done := by
    unfold done
    split_ifs with h
    · rw [h]
      exact f.put_quote_empty
    · exact f.put_quote h
  have hend : (reading e (f.opened f.value)).put '"' = .ok (reading e f.done) :=
    put_reading hquote (by decide) (by decide) (fun heq => absurd heq (by decide))
  rw [feed_cons_of_ok hend]
  rfl

/-- Between two fields. -/
theorem feed_comma (f : Clause) (e : List UdevField) (h : f.value ≠ []) :
    feed UdevRule.put [',', ' '] (reading e f.done) = .ok (reading (e ++ [f.done]) {}) := by
  have hdone : f.done = f.closed := if_neg h
  have hempty : ¬f.closed.empty = true := by simpa [UdevField.empty, closed] using h
  have hput : (reading e f.closed).put ',' = .ok (reading (e ++ [f.closed]) {}) := by
    change (if ¬f.closed.empty = true then _ else _) = _
    rw [if_pos hempty]
    rfl
  rw [hdone, feed_cons_of_ok hput]
  rfl

theorem newline_not_mem_print (f : Clause) : '\n' ∉ f.print := by
  have hhead : '\n' ∉ f.head := f.not_mem_head rfl (by decide)
  simp [print, hhead, f.no_newline]

end Clause

section Printed

open UdevRule

theorem printClauses_singleton (f : Clause) : printClauses [f] = f.print := by
  simp [printClauses]

theorem printClauses_cons_cons (f g : Clause) (gs : List Clause) :
    printClauses (f :: g :: gs) = f.print ++ ([',', ' '] ++ printClauses (g :: gs)) := by
  simp [printClauses, List.intercalate]

theorem newline_not_mem_printClauses (fs : List Clause) : '\n' ∉ printClauses fs := by
  induction fs with
  | nil => simp [printClauses]
  | cons f fs ih =>
    cases fs with
    | nil =>
      rw [printClauses_singleton]
      exact f.newline_not_mem_print
    | cons g gs =>
      rw [printClauses_cons_cons]
      simp [f.newline_not_mem_print, ih]

theorem mem_printClauses {fs : List Clause} {f : Clause} {c : Char} (hf : f ∈ fs)
    (hc : c ∈ f.value) : c ∈ printClauses fs := by
  induction fs with
  | nil => cases hf
  | cons g gs ih =>
    have hprint : c ∈ f.print := by simp [Clause.print, hc]
    cases gs with
    | nil =>
      obtain rfl := List.mem_singleton.mp hf
      rw [printClauses_singleton]
      exact hprint
    | cons g' gs =>
      rw [printClauses_cons_cons]
      rcases List.mem_cons.mp hf with rfl | hf
      · exact List.mem_append_left _ hprint
      · exact List.mem_append_right _ (List.mem_append_right _ (ih hf))

/-- No value has a number sign in it, only the last one may be empty, and in a field without a name
there is no backslash. -/
def Readable (fs : List Clause) : Prop :=
  (∀ f ∈ fs, '#' ∉ f.value) ∧ (∀ f ∈ fs.dropLast, f.value ≠ []) ∧
    ∀ f ∈ fs, f.name = [] → '\\' ∉ f.value

theorem readable_cons_cons (f g : Clause) (gs : List Clause) :
    Readable (f :: g :: gs) ↔ ('#' ∉ f.value ∧ f.value ≠ [] ∧ (f.name = [] → '\\' ∉ f.value)) ∧
      Readable (g :: gs) := by
  unfold Readable
  rw [List.dropLast_cons_cons]
  simp only [List.forall_mem_cons]
  tauto

theorem feed_readable (fs : List Clause) (f : Clause) (e : List UdevField)
    (h : Readable (f :: fs)) :
    ∃ e' b, feed UdevRule.put (printClauses (f :: fs)) (reading e {}) = .ok (reading e' b) ∧
      (e' ++ [b]).map UdevField.texts = e.map UdevField.texts ++ (f :: fs).map Clause.texts := by
  induction fs generalizing f e with
  | nil =>
    rw [printClauses_singleton]
    refine ⟨e, f.done, f.feed_print e (h.1 f List.mem_cons_self) (h.2.2 f List.mem_cons_self), ?_⟩
    simp [f.texts_done]
  | cons g gs ih =>
    obtain ⟨⟨hhash, hvalue, hescape⟩, hrest⟩ := (readable_cons_cons f g gs).mp h
    obtain ⟨e', b, hfeed, htexts⟩ := ih g (e ++ [f.done]) hrest
    refine ⟨e', b, ?_, ?_⟩
    · rw [printClauses_cons_cons, feed_append_of_ok (f.feed_print e hhash hescape),
        feed_append_of_ok (f.feed_comma e hvalue), hfeed]
    · rw [htexts]
      simp [f.texts_done]

/-- In a field without a name a backslash is taken for a continued line. -/
theorem full_of_escape (fs : List Clause) (f : Clause) (e : List UdevField) {q : UdevRule}
    (hhash : '#' ∉ f.value) (hname : f.name = []) (hescape : '\\' ∈ f.value)
    (h : feed UdevRule.put (printRule (f :: fs)) (reading e {}) = .ok q) : q.full = false := by
  obtain ⟨v, w, hvw, hv⟩ := List.eq_append_cons_of_mem hescape
  have hsub : ∀ c, c ∉ f.value → c ∉ v := by
    intro c hc hmem
    exact hc (hvw ▸ List.mem_append_left _ hmem)
  obtain ⟨rest, hrest⟩ : ∃ rest, printClauses (f :: fs) = (f.head ++ v) ++ '\\' :: rest := by
    cases fs with
    | nil => exact ⟨w ++ ['"'], by simp [printClauses_singleton, Clause.print, hvw]⟩
    | cons g gs =>
      exact ⟨w ++ '"' :: ',' :: ' ' :: printClauses (g :: gs), by
        simp [printClauses_cons_cons, Clause.print, hvw]⟩
  have hnewline : '\n' ∉ rest := by
    have hall := newline_not_mem_printClauses (f :: fs)
    rw [hrest] at hall
    exact fun hmem => hall (List.mem_append_right _ (List.mem_cons_of_mem _ hmem))
  have hopened := f.feed_opened e v (hsub _ f.no_quote) (hsub _ f.no_newline) (hsub _ hhash)
    (fun hmem => absurd hmem hv)
  have hput : (reading e (f.opened v)).put '\\' =
      .ok { reading e (f.opened v) with lineContinues := true } := by
    change (if '\\' = '\\' ∧ f.name = [] then _ else _) = _
    rw [if_pos ⟨rfl, hname⟩]
  rw [printRule, hrest, List.append_assoc, feed_append_of_ok hopened, List.cons_append,
    feed_cons_of_ok hput] at h
  exact full_of_held hnewline (Or.inr rfl) h

/-- A printed rule that is not readable does not fill the rule, or one of its values is read as
another one. -/
theorem value_ne_of_not_readable (fs : List Clause) (f : Clause) (e : List UdevField)
    {q : UdevRule} (hhash : ∀ g ∈ f :: fs, '#' ∉ g.value) (hnot : ¬Readable (f :: fs))
    (h : feed UdevRule.put (printRule (f :: fs)) (reading e {}) = .ok q) (hfull : q.full = true) :
    ∃ (j : ℕ) (g : Clause) (k : UdevField), (f :: fs)[j]? = some g ∧
      q.fields[e.length + j]? = some k ∧ k.value.text ≠ g.value := by
  induction fs generalizing f e with
  | nil =>
    by_cases hescape : f.name = [] ∧ '\\' ∈ f.value
    · have hnever := full_of_escape [] f e (hhash f List.mem_cons_self) hescape.1 hescape.2 h
      rw [hnever] at hfull
      cases hfull
    · refine absurd ⟨hhash, ?_, ?_⟩ hnot
      · intro g hg
        cases hg
      · intro g hg hname hmem
        obtain rfl := List.mem_singleton.mp hg
        exact hescape ⟨hname, hmem⟩
  | cons g gs ih =>
    have hf := hhash f List.mem_cons_self
    by_cases hescape : f.name = [] ∧ '\\' ∈ f.value
    · have hnever := full_of_escape (g :: gs) f e hf hescape.1 hescape.2 h
      rw [hnever] at hfull
      cases hfull
    have hescape' : f.name = [] → '\\' ∉ f.value := fun hname hmem => hescape ⟨hname, hmem⟩
    rw [printRule, printClauses_cons_cons, List.append_assoc,
      feed_append_of_ok (f.feed_print e hf hescape'), List.append_assoc] at h
    by_cases hvalue : f.value = []
    · -- the closing quote was passed over, and the comma is the first character of the value
      have hdone : f.done = f.opened [] := if_pos hvalue
      have hcomma : (reading e (f.opened [])).put ',' = .ok (reading e (f.opened [','])) := rfl
      rw [hdone, List.cons_append, feed_cons_of_ok hcomma] at h
      have hlast : (reading e (f.opened [','])).fields[e.length]? = some (f.opened [',']) := by
        simp [reading, fields]
      obtain ⟨k, hk, hpre⟩ := feed_grows h _ _ hlast
      refine ⟨0, f, k, rfl, hk, ?_⟩
      rw [hvalue]
      intro hnil
      rw [hnil] at hpre
      exact absurd (List.prefix_nil.mp hpre) (List.cons_ne_nil _ _)
    · rw [feed_append_of_ok (f.feed_comma e hvalue)] at h
      have hrest : ¬Readable (g :: gs) := fun hgs =>
        hnot ((readable_cons_cons f g gs).mpr ⟨⟨hf, hvalue, hescape'⟩, hgs⟩)
      obtain ⟨j, g', k, hg', hk, hne⟩ := ih g (e ++ [f.done])
        (fun c hc => hhash c (List.mem_cons_of_mem f hc)) hrest h
      refine ⟨j + 1, g', k, hg', ?_, hne⟩
      rw [List.length_append, List.length_singleton] at hk
      rw [← hk]
      congr 1
      omega

end Printed

open UdevRule in
/-- A printed rule is read back exactly when it has a field and is readable. -/
theorem roundTrips_iff (fs : List Clause) : RoundTrips fs ↔ fs ≠ [] ∧ Readable fs := by
  cases fs with
  | nil =>
    refine ⟨?_, fun h => absurd rfl h.1⟩
    rintro ⟨r, hfeed, -, htexts⟩
    have hone := congrArg List.length htexts
    simp [fields] at hone
  | cons f fs =>
    constructor
    · rintro ⟨r, hfeed, hfull, htexts⟩
      refine ⟨List.cons_ne_nil _ _, ?_⟩
      by_contra hnot
      by_cases hhash : ∀ g ∈ f :: fs, '#' ∉ g.value
      · obtain ⟨j, g, k, hg, hk, hne⟩ := value_ne_of_not_readable fs f [] hhash hnot hfeed hfull
        rw [List.length_nil, Nat.zero_add] at hk
        have hj := congrArg (fun l => l[j]?) htexts
        simp only [List.getElem?_map, hg, hk, Option.map_some] at hj
        have htext := congrArg (fun t => t.2.2.2) (Option.some.inj hj)
        exact hne htext
      · push Not at hhash
        obtain ⟨g, hg, hmem⟩ := hhash
        have hnever :=
          full_of_hash (newline_not_mem_printClauses _) (mem_printClauses hg hmem) hfeed
        rw [hnever] at hfull
        cases hfull
    · rintro ⟨-, hreadable⟩
      obtain ⟨e', b, hfeed, htexts⟩ := feed_readable fs f [] hreadable
      have hnewline : (reading e' b).put '\n' =
          .ok { reading e' b with locked := true } := rfl
      refine ⟨{ reading e' b with locked := true }, ?_, rfl, htexts⟩
      exact (feed_append_of_ok hfeed).trans (feed_cons_of_ok hnewline)

/-- The field `A==""`. -/
def emptyValue : Clause where
  name := ['A']
  attr := none
  op := .equal
  value := []
  name_letters := by decide
  attr_letters := nofun
  no_quote := by decide
  no_newline := by decide
  no_escape := by decide

/-- The field `B=="y"`. -/
def plainValue : Clause where
  name := ['B']
  attr := none
  op := .equal
  value := ['y']
  name_letters := by decide
  attr_letters := nofun
  no_quote := by decide
  no_newline := by decide
  no_escape := by decide

/-- The rule `A=="", B=="y"` is not read: the value of the first field is taken to be `, B==`. -/
theorem not_roundTrips : ¬RoundTrips [emptyValue, plainValue] := by
  rintro ⟨r, hfeed, -, -⟩
  have herror : feed UdevRule.put (printRule [emptyValue, plainValue]) {} =
      .error "unexpected character between fields" := by decide +kernel
  rw [herror] at hfeed
  cases hfeed

end Vdev.UdevRules
