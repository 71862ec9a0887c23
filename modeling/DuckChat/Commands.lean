import DuckChat.Client
import DuckChat.Lib.Keywords

/-!
# The commands of a line

`decode_input` compares the start of a line with each command, on as many bytes as the command has.
`get_command_arg` takes the first blank for the end of the command. Between the two a word that goes
on behind a command is taken for that command: `/exits` logs out.

## Main definitions

* `commands` — the commands, each with its code
* `firstWord` — what stands in front of the first blank
* `DecodedByWord` — a line is decoded by its first word

## Main results

* `decodeInput_eq_codeOf` — the comparisons are a search in the list of commands
* `getCommandArg_eq_some_iff` — the other function of the parser goes by the first word
* `decodedByWord_iff` — every line
-/

set_option autoImplicit false

namespace DuckChat

/-- The commands, in the order in which `decode_input` tries them. -/
def commands : List (List UInt8 × InputKind) :=
  [(ascii "/join", .join), (ascii "/list", .list), (ascii "/who", .who), (ascii "/leave", .leave),
    (ascii "/switch", .switch), (ascii "/exit", .logout)]

def blank : UInt8 := 32

/-- What stands in front of the first blank, or the whole line. -/
def firstWord (inp : List UInt8) : List UInt8 := word blank inp

/-- A line is a say if it does not begin with a slash. Else it has the code of a command exactly if
that is its first word, and -1 if its first word is none. -/
structure DecodedByWord (inp : List UInt8) : Prop where
  say : decodeInput inp = .say ↔ ¬ ascii "/" <+: inp
  command : ascii "/" <+: inp → ∀ e ∈ commands, decodeInput inp = e.2 ↔ firstWord inp = e.1
  unknown : ascii "/" <+: inp → (∀ e ∈ commands, firstWord inp ≠ e.1) →
    decodeInput inp = .unknown

section Decoding

variable {inp : List UInt8} {e : List UInt8 × InputKind}

theorem incomparable_commands : Incomparable commands := by
  unfold Incomparable
  decide

/-- Each command has a code of its own. -/
theorem eq_of_code : ∀ e ∈ commands, ∀ e' ∈ commands, e.2 = e'.2 → e = e' := by decide

theorem code_ne : ∀ e ∈ commands, e.2 ≠ .say ∧ e.2 ≠ .unknown := by decide

theorem begins_with_slash : ∀ e ∈ commands, ascii "/" <+: e.1 := by decide

theorem blank_not_mem : ∀ e ∈ commands, blank ∉ e.1 := by decide

/-- **The comparisons** are a search in the list of commands. -/
theorem decodeInput_eq_codeOf (h : ascii "/" <+: inp) :
    decodeInput inp = codeOf commands .unknown inp := by
  rw [decodeInput, if_neg (not_not.mpr (List.isPrefixOf_iff_prefix.mpr h))]
  simp only [commands, codeOf_cons]
  rfl

/-- A command is accepted with anything behind it. -/
theorem decodeInput_eq_iff (h : ascii "/" <+: inp) (he : e ∈ commands) :
    decodeInput inp = e.2 ↔ e.1 <+: inp := by
  rw [decodeInput_eq_codeOf h, codeOf]
  constructor
  · intro hcode
    cases hk : keyword commands inp with
    | none =>
      rw [hk] at hcode
      exact absurd hcode.symm (code_ne e he).2
    | some e' =>
      obtain ⟨he', hp⟩ := mem_of_keyword hk
      rw [hk] at hcode
      rwa [← eq_of_code e' he' e he hcode]
  · intro hp
    rw [(keyword_eq_some_iff incomparable_commands).mpr ⟨he, hp⟩]
    rfl

/-- The first word is what `get_command_arg` passes over, with the blank behind it. -/
theorem getCommandArg_eq_some_iff {chnl : List UInt8} :
    getCommandArg inp = some chnl ↔ inp = firstWord inp ++ blank :: chnl := by
  induction inp with
  | nil => simp [getCommandArg]
  | cons b inp ih =>
    have hblank : [b] = ascii " " ↔ b = blank := by
      rw [show ascii " " = [blank] from rfl, List.cons_eq_cons, and_iff_left rfl]
    rw [getCommandArg, firstWord, word, List.takeWhile_cons]
    by_cases hb : b = blank
    · rw [if_pos (hblank.mpr hb), if_neg (by simp [hb]), List.nil_append, List.cons_eq_cons,
        and_iff_right hb, Option.some.injEq]
    · rw [if_neg (mt hblank.mp hb), if_pos (bne_iff_ne.mpr hb), ih, List.cons_append,
        List.cons_inj_right]
      rfl

theorem decodeInput_eq_say_iff : decodeInput inp = .say ↔ ¬ ascii "/" <+: inp := by
  by_cases h : ascii "/" <+: inp
  · refine iff_of_false ?_ (not_not.mpr h)
    rw [decodeInput_eq_codeOf h, codeOf]
    cases hk : keyword commands inp with
    | none => exact InputKind.noConfusion
    | some e => exact (code_ne e (mem_of_keyword hk).1).1
  · rw [decodeInput, if_pos fun hp => h (List.isPrefixOf_iff_prefix.mp hp)]
    exact iff_of_true rfl h

end Decoding

/-- **A line is decoded by its first word** unless it goes on behind a command without a blank. -/
theorem decodedByWord_iff (inp : List UInt8) :
    DecodedByWord inp ↔ ∀ e ∈ commands, ∀ b rest, inp = e.1 ++ b :: rest → b = blank := by
  constructor
  · rintro hw e he b rest heq
    have hp : e.1 <+: inp := ⟨b :: rest, heq.symm⟩
    have hslash : ascii "/" <+: inp := (begins_with_slash e he).trans hp
    have hword := (hw.command hslash e he).mp ((decodeInput_eq_iff hslash he).mpr hp)
    exact (word_eq_iff_of_begins (blank_not_mem e he) hp).mp hword b rest heq
  · intro h
    have hword : ∀ e ∈ commands, e.1 <+: inp ↔ firstWord inp = e.1 := fun e he =>
      ⟨fun hp => (word_eq_iff_of_begins (blank_not_mem e he) hp).mpr (h e he),
        fun heq => heq ▸ word_begins blank inp⟩
    refine ⟨decodeInput_eq_say_iff, fun hslash e he => ?_, fun hslash hnone => ?_⟩
    · rw [decodeInput_eq_iff hslash he, hword e he]
    · have hk : keyword commands inp = none := keyword_eq_none_iff.mpr fun e he hp =>
        hnone e he ((hword e he).mp hp)
      rw [decodeInput_eq_codeOf hslash, codeOf, hk]
      rfl

/-- `/exits` is taken for `/exit`. -/
theorem not_decodedByWord_exits : ¬ ∀ inp : List UInt8, 0 ∉ inp → DecodedByWord inp := by
  intro h
  have hw := h (ascii "/exits") (by decide)
  have hcode : decodeInput (ascii "/exits") = .logout := by decide
  exact absurd ((hw.command (by decide) (ascii "/exit", .logout) (by decide)).mp hcode) (by decide)

end DuckChat
