import Mathlib.Algebra.Order.Ring.Nat
import Mathlib.Data.List.Basic
import Mathlib.Tactic.Common

/-!
# Menus and message boxes

`UIExecMenu` and `ShowMessageBox` of `UI.c`. A menu is its list of items without the terminator, and the user's input is a list of frames: the buttons newly pressed in each frame, the directions as the repeat filter lets them through. The menus modelled have neither neighbours nor a callback, and none of their items has a value to change.
-/

namespace HddChecker.Ui

/-- The labels of the buttons, as far as the message boxes of the disk scan use them. -/
inductive Label where
  | ok
  | yes
  | no
  | abort
  | remap
  | remapAll
  | skip
  | skipAll
  deriving DecidableEq, Repr

/-- `enum MENU_ITEM`, but for the terminator. -/
inductive MenuItemType where
  | seperator
  | tab
  | space
  | break
  | dash
  | colon
  | dot
  | slash
  | progress
  | label
  | string
  | value
  | button
  | toggle
  | enum
  deriving DecidableEq, Repr

/-- `type > MITEM_LABEL` -/
def MenuItemType.behindLabel : MenuItemType → Bool
  | .string | .value | .button | .toggle | .enum => true
  | _ => false

/-- `struct UIMenuItem`. A label of -1 is nothing. -/
structure UIMenuItem where
  type : MenuItemType
  id : Nat
  hidden : Bool
  isReadonly : Bool
  disabled : Bool
  label : Option Label
  deriving DecidableEq, Repr

/-- An item as the tables of `UI.c` set it up. -/
def item (type : MenuItemType) (id : Nat) (isReadonly : Bool) : UIMenuItem :=
  ⟨type, id, false, isReadonly, false, none⟩

/-- The test of the functions that look for a selectable item. -/
def UIMenuItem.selectable (item : UIMenuItem) : Bool :=
  item.type.behindLabel && !item.disabled && !item.hidden && !item.isReadonly

def UIGetSelectableItem (items : List UIMenuItem) (id : Nat) : Option Nat :=
  match items.findIdx? fun item => item.id == id with
  | some i => if (items[i]?).any UIMenuItem.selectable then some i else none
  | none => none

/-- `UIGetNextSelectableItem`; a negative index is nothing. -/
def UIGetNextSelectableItem (items : List UIMenuItem) (index : Option Nat) : Option Nat :=
  let first := match index with
    | none => 0
    | some i => i + 1
  ((items.drop first).findIdx? UIMenuItem.selectable).map fun i => first + i

/-- The last selectable item before number `n`. -/
def lastSelectable (items : List UIMenuItem) : Nat → Option Nat
  | 0 => none
  | n + 1 => if (items[n]?).any UIMenuItem.selectable then some n else lastSelectable items n

/-- `UIGetPrevSelectableItem`; a negative index is nothing. -/
def UIGetPrevSelectableItem (items : List UIMenuItem) (index : Option Nat) : Option Nat :=
  match index with
  | none => lastSelectable items 1
  | some i => lastSelectable items i

/-- What the user presses in a frame. -/
structure PadFrame where
  up : Bool
  down : Bool
  select : Bool
  cancel : Bool
  deriving DecidableEq, Repr

/-- How a user leaves a menu. -/
inductive MenuExit where
  | select (item : UIMenuItem)
  | cancel
  deriving DecidableEq, Repr

/-- The result of `UIExecMenu`. -/
def MenuExit.result : MenuExit → Nat
  | .select item => item.id
  | .cancel => 1

/-- The selection after the directions of a frame. -/
def moveSelection (items : List UIMenuItem) (selection : Option Nat) (pad : PadFrame) : Option Nat :=
  if pad.up then (UIGetPrevSelectableItem items selection).or selection
  else if pad.down then (UIGetNextSelectableItem items selection).or selection
  else selection

/-- The loop of `UIExecMenu`; nothing while the user has not left the menu. -/
def menuLoop (items : List UIMenuItem) : Option Nat → List PadFrame → Option MenuExit
  | _, [] => none
  | selection, pad :: frames =>
    let selection := moveSelection items selection pad
    if pad.select then
      match selection.bind fun i => items[i]? with
      | some item =>
        if !item.isReadonly && !item.disabled && item.type == .button then some (.select item)
        else menuLoop items selection frames
      | none => menuLoop items selection frames
    else if pad.cancel then some .cancel
    else menuLoop items selection frames

def UIExecMenu (items : List UIMenuItem) (SelectedItem : Nat) (frames : List PadFrame) :
    Option MenuExit :=
  menuLoop items
    ((UIGetSelectableItem items SelectedItem).or (UIGetNextSelectableItem items none)) frames

/-! ### Message boxes -/

def MBOX_SCREEN_ID_TITLE : Nat := 1
def MBOX_SCREEN_ID_MESSAGE : Nat := 2
def MBOX_SCREEN_ID_BTN1 : Nat := 3
def MBOX_SCREEN_ID_BTN2 : Nat := 4
def MBOX_SCREEN_ID_BTN3 : Nat := 5
def MBOX_SCREEN_ID_BTN4 : Nat := 6

/-- `MessageBoxItems`: the third button stands above the second. -/
def MessageBoxItems : List UIMenuItem :=
  [item .label MBOX_SCREEN_ID_TITLE false, item .seperator 0 false, item .break 0 false,
    item .string MBOX_SCREEN_ID_MESSAGE true, item .break 0 false, item .break 0 false,
    item .break 0 false, item .break 0 false, item .break 0 false, item .break 0 false,
    item .break 0 false, item .break 0 false,
    item .button MBOX_SCREEN_ID_BTN1 false, item .break 0 false, item .break 0 false,
    item .button MBOX_SCREEN_ID_BTN3 false, item .break 0 false, item .break 0 false,
    item .button MBOX_SCREEN_ID_BTN2 false, item .break 0 false, item .break 0 false,
    item .button MBOX_SCREEN_ID_BTN4 false]

/-- Changes the first item with an id, as `UIGetItem` finds it. -/
def setItem (id : Nat) (f : UIMenuItem → UIMenuItem) : List UIMenuItem → List UIMenuItem
  | [] => []
  | item :: items => if item.id = id then f item :: items else item :: setItem id f items

/-- `UISetLabel` and `UISetVisible` of a button of the message box. -/
def setButton (id : Nat) (label : Option Label) (items : List UIMenuItem) : List UIMenuItem :=
  setItem id (fun item => { item with label := label, hidden := label.isNone }) items

/-- The items of the message box with these buttons. -/
def messageBox (Option1Label Option2Label Option3Label Option4Label : Option Label) :
    List UIMenuItem :=
  setButton MBOX_SCREEN_ID_BTN4 Option4Label (setButton MBOX_SCREEN_ID_BTN3 Option3Label
    (setButton MBOX_SCREEN_ID_BTN2 Option2Label
      (setButton MBOX_SCREEN_ID_BTN1 Option1Label MessageBoxItems)))

/-- The result of `ShowMessageBox` for a result of `UIExecMenu`. -/
def messageBoxResult (result : Nat) : Nat :=
  if result = MBOX_SCREEN_ID_BTN1 then 1
  else if result = MBOX_SCREEN_ID_BTN2 then 2
  else if result = MBOX_SCREEN_ID_BTN3 then 3
  else if result = MBOX_SCREEN_ID_BTN4 then 4
  else 0

/-- `ShowMessageBox` with at least one button: how the user leaves it. -/
def ShowMessageBox (Option1Label Option2Label Option3Label Option4Label : Option Label)
    (frames : List PadFrame) : Option MenuExit :=
  UIExecMenu (messageBox Option1Label Option2Label Option3Label Option4Label) 0 frames

def DisplayPromptMessage (Button1Label Button2Label : Label) (frames : List PadFrame) :
    Option MenuExit := ShowMessageBox (some Button1Label) (some Button2Label) none none frames

/-! ### What a user can choose -/

variable {items : List UIMenuItem} {selection : Option Nat} {frames : List PadFrame}

theorem menuLoop_select {item : UIMenuItem}
    (h : menuLoop items selection frames = some (.select item)) :
    item ∈ items ∧ item.type = .button := by
  induction frames generalizing selection with
  | nil => cases h
  | cons pad frames ih =>
    rw [menuLoop] at h
    split at h
    · split at h
      · rename_i found hfound
        split at h
        · rename_i hbutton
          rw [Option.some.injEq, MenuExit.select.injEq] at h
          subst h
          simp only [Bool.and_eq_true, beq_iff_eq] at hbutton
          obtain ⟨i, -, hi⟩ := Option.bind_eq_some_iff.mp hfound
          exact ⟨List.mem_of_getElem? hi, hbutton.2⟩
        · exact ih h
      · exact ih h
    · split at h
      · cases h
      · exact ih h

end HddChecker.Ui
