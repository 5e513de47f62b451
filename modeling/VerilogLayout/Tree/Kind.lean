import VerilogLayout.Text.Basic

/-!
# Kinds of nodes

The rules of the Verilog-2001 grammar that the layout knows. A node whose name is no rule here is
written as it stands. The classes below say how a kind takes part in the layout: which ones are
wrappers around another node, which ones fill a line of their own and which ones stay inside one.
-/

namespace VerilogLayout

/-- A rule of the grammar. -/
inductive Kind where
  | sourceText
  | description
  | moduleDeclaration
  | moduleKeyword
  | moduleIdentifier
  | moduleParameterPortList
  | listOfPorts
  | listOfPortDeclarations
  | port
  | moduleItem
  | nonPortModuleItem
  | moduleOrGenerateItem
  | moduleOrGenerateItemDeclaration
  | portDeclaration
  | inputDeclaration
  | outputDeclaration
  | inoutDeclaration
  | tfInputDeclaration
  | tfOutputDeclaration
  | tfInoutDeclaration
  | netType
  | outputVariableType
  | listOfPortIdentifiers
  | listOfVariablePortIdentifiers
  | netDeclaration
  | regDeclaration
  | integerDeclaration
  | realDeclaration
  | timeDeclaration
  | genvarDeclaration
  | listOfNetIdentifiers
  | listOfNetDeclAssignments
  | listOfVariableIdentifiers
  | listOfGenvarIdentifiers
  | variableType
  | netDeclAssignment
  | range
  | dimension
  | blockItemDeclaration
  | parameterDeclaration
  | localParameterDeclaration
  | parameterType
  | listOfParamAssignments
  | paramAssignment
  | moduleInstantiation
  | parameterValueAssignment
  | listOfParameterAssignments
  | orderedParameterAssignment
  | namedParameterAssignment
  | moduleInstance
  | nameOfModuleInstance
  | listOfPortConnections
  | orderedPortConnection
  | namedPortConnection
  | continuousAssign
  | listOfNetAssignments
  | netAssignment
  | netLvalue
  | alwaysConstruct
  | initialConstruct
  | statement
  | statementOrNull
  | functionStatement
  | seqBlock
  | conditionalStatement
  | caseStatement
  | caseItem
  | loopStatement
  | proceduralTimingControlStatement
  | eventControl
  | delayControl
  | blockingAssignment
  | nonblockingAssignment
  | variableAssignment
  | variableLvalue
  | generateRegion
  | loopGenerateConstruct
  | conditionalGenerateConstruct
  | ifGenerateConstruct
  | generateBlock
  | generateBlockOrNull
  | functionDeclaration
  | taskDeclaration
  | functionItemDeclaration
  | taskItemDeclaration
  | expression
  | constantExpression
  | primary
  | unaryOperator
  | binaryOperator
  | hierarchicalIdentifier
  | rangeExpression
  | constantRangeExpression
  | msbConstantExpression
  | lsbConstantExpression
deriving DecidableEq, Repr

namespace Kind

/-- The name of a rule in a tree. -/
def name : Kind → String
  | .sourceText => "source_text"
  | .description => "description"
  | .moduleDeclaration => "module_declaration"
  | .moduleKeyword => "module_keyword"
  | .moduleIdentifier => "module_identifier"
  | .moduleParameterPortList => "module_parameter_port_list"
  | .listOfPorts => "list_of_ports"
  | .listOfPortDeclarations => "list_of_port_declarations"
  | .port => "port"
  | .moduleItem => "module_item"
  | .nonPortModuleItem => "non_port_module_item"
  | .moduleOrGenerateItem => "module_or_generate_item"
  | .moduleOrGenerateItemDeclaration => "module_or_generate_item_declaration"
  | .portDeclaration => "port_declaration"
  | .inputDeclaration => "input_declaration"
  | .outputDeclaration => "output_declaration"
  | .inoutDeclaration => "inout_declaration"
  | .tfInputDeclaration => "tf_input_declaration"
  | .tfOutputDeclaration => "tf_output_declaration"
  | .tfInoutDeclaration => "tf_inout_declaration"
  | .netType => "net_type"
  | .outputVariableType => "output_variable_type"
  | .listOfPortIdentifiers => "list_of_port_identifiers"
  | .listOfVariablePortIdentifiers => "list_of_variable_port_identifiers"
  | .netDeclaration => "net_declaration"
  | .regDeclaration => "reg_declaration"
  | .integerDeclaration => "integer_declaration"
  | .realDeclaration => "real_declaration"
  | .timeDeclaration => "time_declaration"
  | .genvarDeclaration => "genvar_declaration"
  | .listOfNetIdentifiers => "list_of_net_identifiers"
  | .listOfNetDeclAssignments => "list_of_net_decl_assignments"
  | .listOfVariableIdentifiers => "list_of_variable_identifiers"
  | .listOfGenvarIdentifiers => "list_of_genvar_identifiers"
  | .variableType => "variable_type"
  | .netDeclAssignment => "net_decl_assignment"
  | .range => "range_"
  | .dimension => "dimension"
  | .blockItemDeclaration => "block_item_declaration"
  | .parameterDeclaration => "parameter_declaration"
  | .localParameterDeclaration => "local_parameter_declaration"
  | .parameterType => "parameter_type"
  | .listOfParamAssignments => "list_of_param_assignments"
  | .paramAssignment => "param_assignment"
  | .moduleInstantiation => "module_instantiation"
  | .parameterValueAssignment => "parameter_value_assignment"
  | .listOfParameterAssignments => "list_of_parameter_assignments"
  | .orderedParameterAssignment => "ordered_parameter_assignment"
  | .namedParameterAssignment => "named_parameter_assignment"
  | .moduleInstance => "module_instance"
  | .nameOfModuleInstance => "name_of_module_instance"
  | .listOfPortConnections => "list_of_port_connections"
  | .orderedPortConnection => "ordered_port_connection"
  | .namedPortConnection => "named_port_connection"
  | .continuousAssign => "continuous_assign"
  | .listOfNetAssignments => "list_of_net_assignments"
  | .netAssignment => "net_assignment"
  | .netLvalue => "net_lvalue"
  | .alwaysConstruct => "always_construct"
  | .initialConstruct => "initial_construct"
  | .statement => "statement"
  | .statementOrNull => "statement_or_null"
  | .functionStatement => "function_statement"
  | .seqBlock => "seq_block"
  | .conditionalStatement => "conditional_statement"
  | .caseStatement => "case_statement"
  | .caseItem => "case_item"
  | .loopStatement => "loop_statement"
  | .proceduralTimingControlStatement => "procedural_timing_control_statement"
  | .eventControl => "event_control"
  | .delayControl => "delay_control"
  | .blockingAssignment => "blocking_assignment"
  | .nonblockingAssignment => "nonblocking_assignment"
  | .variableAssignment => "variable_assignment"
  | .variableLvalue => "variable_lvalue"
  | .generateRegion => "generate_region"
  | .loopGenerateConstruct => "loop_generate_construct"
  | .conditionalGenerateConstruct => "conditional_generate_construct"
  | .ifGenerateConstruct => "if_generate_construct"
  | .generateBlock => "generate_block"
  | .generateBlockOrNull => "generate_block_or_null"
  | .functionDeclaration => "function_declaration"
  | .taskDeclaration => "task_declaration"
  | .functionItemDeclaration => "function_item_declaration"
  | .taskItemDeclaration => "task_item_declaration"
  | .expression => "expression"
  | .constantExpression => "constant_expression"
  | .primary => "primary"
  | .unaryOperator => "unary_operator"
  | .binaryOperator => "binary_operator"
  | .hierarchicalIdentifier => "hierarchical_identifier"
  | .rangeExpression => "range_expression"
  | .constantRangeExpression => "constant_range_expression"
  | .msbConstantExpression => "msb_constant_expression"
  | .lsbConstantExpression => "lsb_constant_expression"

/-- The rule with a name; two rules have a second name. -/
def ofString? : String → Option Kind
  | "source_text" => some .sourceText
  | "description" => some .description
  | "module_declaration" => some .moduleDeclaration
  | "module_keyword" => some .moduleKeyword
  | "module_identifier" => some .moduleIdentifier
  | "module_parameter_port_list" => some .moduleParameterPortList
  | "list_of_ports" => some .listOfPorts
  | "list_of_port_declarations" => some .listOfPortDeclarations
  | "port" => some .port
  | "module_item" => some .moduleItem
  | "non_port_module_item" => some .nonPortModuleItem
  | "module_or_generate_item" => some .moduleOrGenerateItem
  | "module_or_generate_item_declaration" => some .moduleOrGenerateItemDeclaration
  | "port_declaration" => some .portDeclaration
  | "input_declaration" => some .inputDeclaration
  | "output_declaration" => some .outputDeclaration
  | "inout_declaration" => some .inoutDeclaration
  | "tf_input_declaration" => some .tfInputDeclaration
  | "tf_output_declaration" => some .tfOutputDeclaration
  | "tf_inout_declaration" => some .tfInoutDeclaration
  | "net_type" => some .netType
  | "output_variable_type" => some .outputVariableType
  | "list_of_port_identifiers" => some .listOfPortIdentifiers
  | "list_of_variable_port_identifiers" => some .listOfVariablePortIdentifiers
  | "net_declaration" => some .netDeclaration
  | "reg_declaration" => some .regDeclaration
  | "integer_declaration" => some .integerDeclaration
  | "real_declaration" => some .realDeclaration
  | "time_declaration" => some .timeDeclaration
  | "genvar_declaration" => some .genvarDeclaration
  | "list_of_net_identifiers" => some .listOfNetIdentifiers
  | "list_of_net_decl_assignments" => some .listOfNetDeclAssignments
  | "list_of_variable_identifiers" => some .listOfVariableIdentifiers
  | "list_of_genvar_identifiers" => some .listOfGenvarIdentifiers
  | "variable_type" => some .variableType
  | "net_decl_assignment" => some .netDeclAssignment
  | "range_" => some .range
  | "dimension" => some .dimension
  | "block_item_declaration" => some .blockItemDeclaration
  | "parameter_declaration" => some .parameterDeclaration
  | "local_parameter_declaration" => some .localParameterDeclaration
  | "parameter_type" => some .parameterType
  | "list_of_param_assignments" => some .listOfParamAssignments
  | "param_assignment" => some .paramAssignment
  | "module_instantiation" => some .moduleInstantiation
  | "parameter_value_assignment" => some .parameterValueAssignment
  | "list_of_parameter_assignments" => some .listOfParameterAssignments
  | "ordered_parameter_assignment" => some .orderedParameterAssignment
  | "named_parameter_assignment" => some .namedParameterAssignment
  | "module_instance" => some .moduleInstance
  | "name_of_module_instance" => some .nameOfModuleInstance
  | "list_of_port_connections" => some .listOfPortConnections
  | "ordered_port_connection" => some .orderedPortConnection
  | "named_port_connection" => some .namedPortConnection
  | "continuous_assign" => some .continuousAssign
  | "list_of_net_assignments" => some .listOfNetAssignments
  | "net_assignment" => some .netAssignment
  | "net_lvalue" => some .netLvalue
  | "always_construct" => some .alwaysConstruct
  | "initial_construct" => some .initialConstruct
  | "statement" => some .statement
  | "statement_or_null" => some .statementOrNull
  | "function_statement" => some .functionStatement
  | "seq_block" => some .seqBlock
  | "conditional_statement" => some .conditionalStatement
  | "case_statement" => some .caseStatement
  | "case_item" => some .caseItem
  | "loop_statement" => some .loopStatement
  | "procedural_timing_control_statement" => some .proceduralTimingControlStatement
  | "event_control" => some .eventControl
  | "delay_control" => some .delayControl
  | "blocking_assignment" => some .blockingAssignment
  | "nonblocking_assignment" => some .nonblockingAssignment
  | "variable_assignment" => some .variableAssignment
  | "variable_lvalue" => some .variableLvalue
  | "generate_region" => some .generateRegion
  | "loop_generate_construct" => some .loopGenerateConstruct
  | "conditional_generate_construct" => some .conditionalGenerateConstruct
  | "if_generate_construct" => some .ifGenerateConstruct
  | "generate_block" => some .generateBlock
  | "generate_block_or_null" => some .generateBlockOrNull
  | "function_declaration" => some .functionDeclaration
  | "task_declaration" => some .taskDeclaration
  | "function_item_declaration" => some .functionItemDeclaration
  | "task_item_declaration" => some .taskItemDeclaration
  | "expression" => some .expression
  | "constant_expression" => some .constantExpression
  | "primary" => some .primary
  | "unary_operator" => some .unaryOperator
  | "binary_operator" => some .binaryOperator
  | "hierarchical_identifier" => some .hierarchicalIdentifier
  | "range_expression" => some .rangeExpression
  | "constant_range_expression" => some .constantRangeExpression
  | "msb_constant_expression" => some .msbConstantExpression
  | "lsb_constant_expression" => some .lsbConstantExpression
  | "range" => some .range
  | "generated_instantiation" => some .generateRegion
  | _ => none

/-- The rule that a node is named after. -/
def ofName? (name : Text) : Option Kind :=
  name.string?.bind ofString?

/-- A wrapper is laid out as the one phrase it holds. -/
def isWrapper : Kind → Bool
  | .description | .portDeclaration | .moduleItem | .nonPortModuleItem
  | .moduleOrGenerateItem | .moduleOrGenerateItemDeclaration | .blockItemDeclaration
  | .functionItemDeclaration | .taskItemDeclaration | .statement | .statementOrNull
  | .functionStatement | .generateBlockOrNull | .conditionalGenerateConstruct => true
  | _ => false

/-- A major kind always ends its line. -/
def isMajor : Kind → Bool
  | .moduleDeclaration | .moduleItem | .nonPortModuleItem | .moduleOrGenerateItem
  | .moduleOrGenerateItemDeclaration | .portDeclaration | .inputDeclaration
  | .outputDeclaration | .inoutDeclaration | .tfInputDeclaration | .tfOutputDeclaration
  | .tfInoutDeclaration | .netDeclaration | .regDeclaration | .integerDeclaration
  | .realDeclaration | .timeDeclaration | .genvarDeclaration | .blockItemDeclaration
  | .parameterDeclaration | .localParameterDeclaration | .moduleInstantiation
  | .continuousAssign | .alwaysConstruct | .initialConstruct | .statement | .statementOrNull
  | .functionStatement | .seqBlock | .conditionalStatement | .caseStatement | .caseItem
  | .loopStatement | .proceduralTimingControlStatement | .generateRegion
  | .loopGenerateConstruct | .conditionalGenerateConstruct | .ifGenerateConstruct
  | .generateBlock | .functionDeclaration | .taskDeclaration => true
  | _ => false

/-- An inline kind is written inside a line. -/
def isInline : Kind → Bool
  | .expression | .constantExpression | .primary | .hierarchicalIdentifier | .range
  | .dimension | .eventControl | .delayControl | .namedPortConnection
  | .orderedPortConnection | .namedParameterAssignment | .orderedParameterAssignment
  | .blockingAssignment | .nonblockingAssignment | .variableAssignment | .netAssignment
  | .paramAssignment | .netLvalue | .variableLvalue | .moduleIdentifier => true
  | _ => false

/-- These kinds write the indentation of their first line themselves. -/
def indentsItself : Kind → Bool
  | .sourceText | .moduleDeclaration => true
  | _ => false

/-- Inside these kinds a colon separates the bounds of a range. -/
def isRangeContext : Kind → Bool
  | .range | .dimension | .rangeExpression | .constantRangeExpression => true
  | _ => false

/-- A procedural assignment. -/
def isSimpleAssignment : Kind → Bool
  | .blockingAssignment | .nonblockingAssignment => true
  | _ => false

/-- A declaration of ports. -/
def isPortDeclaration : Kind → Bool
  | .inputDeclaration | .outputDeclaration | .inoutDeclaration | .tfInputDeclaration
  | .tfOutputDeclaration | .tfInoutDeclaration => true
  | _ => false

/-- A declaration of nets or variables. -/
def isSignalDeclaration : Kind → Bool
  | .netDeclaration | .regDeclaration | .integerDeclaration | .realDeclaration
  | .timeDeclaration | .genvarDeclaration => true
  | _ => false

/-- A declaration of parameters. -/
def isParameterDeclaration : Kind → Bool
  | .parameterDeclaration | .localParameterDeclaration => true
  | _ => false

/-- A list of declared identifiers. -/
def isIdentifierList : Kind → Bool
  | .listOfPortIdentifiers | .listOfVariablePortIdentifiers | .listOfNetIdentifiers
  | .listOfNetDeclAssignments | .listOfVariableIdentifiers | .listOfGenvarIdentifiers => true
  | _ => false

/-- A phrase between the keyword and the names of a declaration. -/
def isModifier : Kind → Bool
  | .netType | .outputVariableType | .parameterType => true
  | _ => false

/-- The bounds of a vector or an array. -/
def isDimension : Kind → Bool
  | .dimension | .range => true
  | _ => false

/-- A connection by name. -/
def isNamedConnection : Kind → Bool
  | .namedPortConnection | .namedParameterAssignment => true
  | _ => false

/-- A phrase that `begin` may open. -/
def isBlock : Kind → Bool
  | .seqBlock | .generateBlock => true
  | _ => false

/-- A choice with an optional `else`. -/
def isConditional : Kind → Bool
  | .conditionalStatement | .ifGenerateConstruct => true
  | _ => false

/-- These kinds write the terminator that they are given themselves. -/
def writesTerminator (kind : Kind) : Bool :=
  kind.isPortDeclaration || kind.isSignalDeclaration || kind.isParameterDeclaration ||
    kind.isSimpleAssignment || kind = .continuousAssign || kind = .moduleInstantiation

end Kind
end VerilogLayout
