import MetaZenith.StreamingParserEngine

/-! The Qwen3 format: reasoning between think tags, tool calls as XML. -/

namespace MetaZenith.ParserEngine

def qwen3Config (thinking : Bool) : ParserEngineConfig where
  initialState := if thinking then .reasoning else .content
  terminals := [
    ("THINK_START","<think>".toList),("THINK_END","</think>".toList),
    ("TOOL_START","<tool_call>".toList),("TOOL_END","</tool_call>".toList),
    ("FUNC_PREFIX","<function=".toList),("FUNC_END","</function>".toList),
    ("PARAM_START","<parameter=".toList),("PARAM_END","</parameter>".toList),
    ("CLOSE_ANGLE",">".toList)]
  tokenIdTerminals := [
    ("THINK_START","<think>".toList),("THINK_END","</think>".toList),
    ("TOOL_START","<tool_call>".toList),("TOOL_END","</tool_call>".toList)]
  transitions := [
    ((.reasoning,"THINK_START"),{ nextState := .reasoning }),
    ((.reasoning,"THINK_END"),{ nextState := .content, events := [.reasoningEnd] }),
    ((.content,"THINK_END"),{ nextState := .content }),
    ((.reasoning,"TOOL_START"),
      { nextState := .toolPreamble, events := [.reasoningEnd,.toolCallStart] }),
    ((.content,"TOOL_START"),
      { nextState := .toolPreamble, events := [.reasoningEnd,.toolCallStart] }),
    ((.content,"FUNC_PREFIX"),{ nextState := .toolName, events := [.toolCallStart] }),
    ((.toolPreamble,"TOOL_END"),{ nextState := .content, events := [.toolCallEnd] }),
    ((.toolPreamble,"FUNC_PREFIX"),{ nextState := .toolName }),
    ((.toolName,"CLOSE_ANGLE"),{ nextState := .toolArgs }),
    ((.toolName,"FUNC_END"),{ nextState := .toolBetween, events := [.toolCallEnd] }),
    ((.toolArgs,"FUNC_END"),{ nextState := .toolBetween, events := [.toolCallEnd] }),
    ((.toolArgs,"PARAM_START"),{ nextState := .toolArgs, events := [.argValueChunk] }),
    ((.toolArgs,"PARAM_END"),{ nextState := .toolArgs, events := [.argValueChunk] }),
    ((.toolBetween,"TOOL_END"),{ nextState := .content }),
    ((.toolBetween,"TOOL_START"),{ nextState := .toolPreamble, events := [.toolCallStart] }),
    ((.toolBetween,"FUNC_PREFIX"),{ nextState := .toolName, events := [.toolCallStart] })]
  toolArgsJson := false

end MetaZenith.ParserEngine
