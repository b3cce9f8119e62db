import UiLowering.Env
import UiLowering.View.Plan

/-!
# Plans as target text
-/

set_option autoImplicit false

namespace UiLowering

/-- The argument of a function that takes an item out of the view: whether its element stays. -/
def keepArg (keep : Bool) : String := if keep then "true" else ""

/-- An assignment, by an operator if there is one. -/
def assignText (target value : String) : Option String → String
  | some op => target ++ " = " ++ target ++ " " ++ op ++ " " ++ value ++ ";\n"
  | none => target ++ " = " ++ value ++ ";\n"

namespace ViewStep

/-- The code that puts the node of an element in front of the node of the next one. -/
def relocateText (storage parent index : String) : String :=
  "\x7b\nint _idx = " ++ index ++ ";\n" ++
    "webcc::handle _node = " ++ storage ++ "[_idx]._get_root_element();\n" ++
    "webcc::handle _ref = (_idx + 1 < (int)" ++ storage ++ ".size()) ? " ++ storage ++
    "[_idx + 1]._get_root_element() : webcc::handle" ++ braced "0" ++ ";\n" ++
    "webcc::dom::move_before(" ++ parent ++ ", _node, _ref);\n\x7d\n"

mutual

/-- A step in target text; `storage` is the code that names the collection. -/
def render (info : BoundCollection) (storage : String) : ViewStep → String
  | .scope body => "\x7b\n" ++ renderAll info storage body ++ "\x7d\n"
  | .ifAttached body =>
    "if (" ++ info.parent ++ ".is_valid()) \x7b\n" ++ renderAll info storage body ++ "\x7d\n"
  | .ifNonEmpty body =>
    "if (!" ++ storage ++ ".empty()) \x7b\n" ++ renderAll info storage body ++ "\x7d\n"
  | .ifRendered body =>
    "if (" ++ info.countVar ++ " > 0) \x7b\n" ++ renderAll info storage body ++ "\x7d\n"
  | .saveOldCount => "int _old_count = (int)" ++ storage ++ ".size();\n"
  | .append item => storage ++ ".push_back(" ++ item ++ ");\n"
  | .rebindExisting => "for (int _i = 0; _i < _old_count; _i++) " ++ storage ++ "[_i]._rebind();\n"
  | .bindNewest =>
    "auto& " ++ info.itemVar ++ " = " ++ storage ++ "[" ++ storage ++ ".size() - 1];\n"
  | .createItem => Text.endLine info.creationCode
  | .incrementCount => info.countVar ++ "++;\n"
  | .decrementCount => info.countVar ++ "--;\n"
  | .removeLastView keepDom => storage ++ ".back()._remove_view(" ++ keepArg keepDom ++ ");\n"
  | .shrinkByOne => storage ++ ".pop_back();\n"
  | .teardownAll bulk =>
    "for (auto& _v : " ++ storage ++ ") " ++
      braced (" _v._remove_view(" ++ keepArg bulk ++ "); ") ++ "\n"
  | .resetParentContent => "webcc::dom::set_inner_html(" ++ info.parent ++ ", \"\");\n"
  | .resetCount => info.countVar ++ " = 0;\n"
  | .clearStorage => storage ++ ".clear();\n"
  | .assign value => storage ++ " = " ++ value ++ ";\n"
  | .countFromSize => info.countVar ++ " = (int)" ++ storage ++ ".size();\n"
  | .enterRender => "g_view_depth++;\n"
  | .createEach =>
    "for (auto& " ++ info.itemVar ++ " : " ++ storage ++ ") \x7b\n" ++
      Text.endLine info.creationCode ++ "\x7d\n"
  | .exitRenderAndFlush => "if (--g_view_depth == 0) webcc::flush();\n"
  | .writeElement index value compoundOp =>
    assignText (storage ++ "[" ++ index ++ "]") value compoundOp
  | .relocateNode index => relocateText storage info.parent index

/-- Several steps in target text. -/
def renderAll (info : BoundCollection) (storage : String) : List ViewStep → String
  | [] => ""
  | step :: steps => render info storage step ++ renderAll info storage steps

end

end ViewStep

/-- A plan in target text; `storage` is the code that names the collection. -/
def ViewPlan.render (info : BoundCollection) (storage : String) (plan : ViewPlan) : String :=
  ViewStep.renderAll info storage plan

end UiLowering
